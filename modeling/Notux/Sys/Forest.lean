import Notux.Fs.Names
import Notux.Sys.Effects

/-!
# The forest of names

The files are a forest of names: creating a file or a directory makes a node of it, removing one
takes its name away, and everything else leaves it alone or loses nodes without links.
-/

namespace Notux.Fs

open Notux.Store Notux.Proc

/-! ## Names in paths -/

theorem fits_of_skipelem {path name rest : List Byte} (noNul : 0 ∉ path)
    (element : skipelem path = some (name, rest)) : Fits name ∧ 0 ∉ rest := by
  unfold skipelem at element
  dsimp only at element
  split at element
  · cases element
  · obtain ⟨rfl, rfl⟩ := Prod.mk.inj (Option.some.inj element)
    have trimmed := (List.dropWhile_suffix (· = slash) (l := path)).subset
    constructor
    · constructor
      · exact List.length_take_le _ _
      · intro member
        have whole := (List.takeWhile_prefix (· ≠ slash)).subset (List.mem_of_mem_take member)
        exact noNul (trimmed whole)
    · intro member
      have behind := (List.dropWhile_suffix (· = slash)).subset member
      exact noNul (trimmed ((List.dropWhile_suffix (· ≠ slash)).subset behind))

namespace Files

variable {files files' : Files}

/-- The last element of a path fits into an entry. -/
theorem walk_fits {fuel i d : Nat} {path name : List Byte} (noNul : 0 ∉ path)
    (leads : files.walk true fuel i path = some (d, name)) : Fits name := by
  induction fuel generalizing i path with
  | zero => cases leads
  | succ fuel ih =>
      unfold walk at leads
      split at leads
      · simp at leads
      · next element =>
        obtain ⟨fits, behind⟩ := fits_of_skipelem noNul element
        obtain ⟨node, -, rest⟩ := Option.bind_eq_some_iff.mp leads
        split at rest
        · cases rest
        · split at rest
          · obtain ⟨-, rfl⟩ := Prod.mk.inj (Option.some.inj rest)
            exact fits
          · obtain ⟨off, -, further⟩ := Option.bind_eq_some_iff.mp rest
            exact ih behind further

theorem resolve_fits {cwd d : Nat} {path : CString} {name : List Byte}
    (leads : files.resolve cwd path.bytes true = some (d, name)) : Fits name :=
  walk_fits path.noNul leads

/-! ## The forest -/

/-- The names of the files. -/
def naming (files : Files) : Naming Nat (List Byte) := fun i => (files i).map Node.item

/-- The directories are as the kernel makes them, and form a forest with the root. -/
structure Forest (extra : Nat → Nat) (files : Files) : Prop where
  noZero : files 0 = none
  listed : ∀ i node, files i = some node → node.type = T_DIR → node.Listed i
  formed : files.naming.WellFormed ROOTINO extra

/-- The inode numbers that are in use fit into an entry, with room for links. -/
structure Roomy (limit : Nat) (extra : Nat → Nat) : Prop where
  limit : limit + 4 < 2 ^ 16
  extra : ∀ i, extra i ≤ 2

/-- All inode numbers in use are below a limit. -/
def Bounded (limit : Nat) (files : Files) : Prop := ∀ i, files i ≠ none → i < limit

/-- All inode numbers with a link are below a limit. -/
def BoundedLinks (limit : Nat) (files : Files) : Prop :=
  ∀ i node, files i = some node → node.nlink ≠ 0 → i < limit

/-- The forest goes on in steps. -/
structure Advance (extra : Nat → Nat) (files files' : Files) : Prop where
  forest : files'.Forest extra
  run : Relation.ReflTransGen Naming.Step files.naming files'.naming

theorem Advance.trans {extra : Nat → Nat} {files'' : Files} (first : Advance extra files files')
    (second : Advance extra files' files'') : Advance extra files files'' :=
  ⟨second.forest, first.run.trans second.run⟩

theorem naming_eq {i : Nat} {node : Node} (found : files i = some node) :
    files.naming i = some node.item := by
  unfold naming
  rw [found]
  rfl

theorem naming_none {i : Nat} (free : files i = none) : files.naming i = none := by
  unfold naming
  rw [free]
  rfl

theorem naming_update (files : Files) (i : Nat) (node : Node) :
    naming (Function.update files i (some node)) =
      Function.update files.naming i (some node.item) := by
  funext j
  unfold naming
  by_cases same : j = i
  · rw [same, Function.update_self, Function.update_self]
    rfl
  · rw [Function.update_of_ne same, Function.update_of_ne same]

theorem Sheds.loses (sheds : files.Sheds files') : files.naming.Loses files'.naming := by
  intro i
  rcases sheds i with same | ⟨gone, node, found, unlinked⟩
  · left
    unfold naming
    rw [same]
  · right
    refine ⟨naming_none gone, ?_, ?_⟩
    · rw [naming_eq found]
      exact Option.some_ne_none _
    · unfold Naming.links
      rw [naming_eq found]
      change node.nlink.toNat = 0
      rw [unlinked]
      rfl

/-- A directory as a node of the forest. -/
theorem naming_dir {d : Nat} {node : Node} (found : files d = some node)
    (isDir : node.type = T_DIR) :
    files.naming d = some ⟨node.nlink.toNat, some ⟨node.inumAt DIRENT_SIZE, node.bound⟩⟩ := by
  rw [naming_eq found, Node.item_of_dir isDir]

/-- What is gone is gone beside a change. -/
theorem Sheds.update (sheds : files.Sheds files') (n : Nat) (node : Option Node) :
    Sheds (Function.update files n node) (Function.update files' n node) := by
  intro i
  by_cases same : i = n
  · rw [same, Function.update_self, Function.update_self]
    exact Or.inl rfl
  · rw [Function.update_of_ne same, Function.update_of_ne same]
    exact sheds i

/-- A name of the forest is bound by a directory. -/
theorem child_iff {d n : Nat} {name : List Byte} : files.naming.child d name = some n ↔
    ∃ node, files d = some node ∧ node.type = T_DIR ∧ node.bound name = some n := by
  constructor
  · intro bound
    obtain ⟨dir, isDir, binds⟩ := Option.bind_eq_some_iff.mp bound
    obtain ⟨item, isItem, holds⟩ := Option.bind_eq_some_iff.mp isDir
    obtain ⟨node, found, rfl⟩ := Option.map_eq_some_iff.mp isItem
    have holds' : node.directory = some dir := holds
    by_cases type : node.type = T_DIR
    · rw [Node.directory_of_dir type] at holds'
      cases holds'
      exact ⟨node, found, type, binds⟩
    · rw [Node.directory_of_file type] at holds'
      cases holds'
  · rintro ⟨node, found, type, binds⟩
    rw [Naming.child_eq (Naming.dirOf_eq_some (naming_dir found type))]
    exact binds

/-- A directory that an entry leads to. -/
theorem kid_of_lookup {d off : Nat} {name : List Byte} {parent child : Node}
    (isThere : files d = some parent) (isDir : parent.type = T_DIR) (notDots : ¬ IsDots name)
    (fits : Fits name) (found : parent.lookup name = some off)
    (target : files (parent.inumAt off) = some child) (isChildDir : child.type = T_DIR) :
    parent.inumAt off ∈ files.naming.kids d := by
  constructor
  · exact ⟨name, child_iff.mpr ⟨parent, isThere, isDir, Node.bound_of_lookup fits notDots found⟩⟩
  · rw [Naming.dirOf_eq_some (naming_dir target isChildDir)]
    exact Option.some_ne_none _

/-- The nodes of the forest that are directories. -/
theorem dirOf_ne_none_iff {d : Nat} :
    files.naming.dirOf d ≠ none ↔ ∃ node, files d = some node ∧ node.type = T_DIR := by
  constructor
  · intro isDir
    obtain ⟨dir, isDir⟩ := Option.ne_none_iff_exists'.mp isDir
    obtain ⟨item, isItem, holds⟩ := Option.bind_eq_some_iff.mp isDir
    obtain ⟨node, found, rfl⟩ := Option.map_eq_some_iff.mp isItem
    have holds' : node.directory = some dir := holds
    refine ⟨node, found, ?_⟩
    by_contra isFile
    rw [Node.directory_of_file isFile] at holds'
    cases holds'
  · rintro ⟨node, found, type⟩
    rw [Naming.dirOf_eq_some (naming_dir found type)]
    exact Option.some_ne_none _

section Forest

variable {limit : Nat} {extra : Nat → Nat} (forest : files.Forest extra)

include forest

/-- A run of the forest that leaves directories as the kernel makes them. -/
theorem Forest.of_run (noZero : files' 0 = none)
    (listed : ∀ i node, files' i = some node → node.type = T_DIR → node.Listed i)
    (run : Relation.ReflTransGen Naming.Step files.naming files'.naming) :
    Advance extra files files' :=
  ⟨⟨noZero, listed, forest.formed.run run⟩, run⟩

theorem Forest.refl : Advance extra files files := ⟨forest, .refl⟩

theorem Forest.sheds (sheds : files.Sheds files') : Advance extra files files' := by
  have within : ∀ i node, files' i = some node → files i = some node := by
    intro i node found
    rcases sheds i with same | ⟨gone, -⟩
    · exact same ▸ found
    · rw [gone] at found
      cases found
  apply forest.of_run
  · cases zero : files' 0 with
    | none => rfl
    | some node => exact absurd (within 0 node zero) (by rw [forest.noZero]; exact nofun)
  · intro i node found isDir
    exact forest.listed i node (within i node found) isDir
  · exact .single (.lose sheds.loses)

/-- A directory does not have too many links. -/
theorem Forest.links_lt (bounded : files.Bounded limit) (roomy : Roomy limit extra) {d : Nat}
    {node : Node} (found : files d = some node) (isDir : node.type = T_DIR) :
    node.nlink.toNat + 1 < 2 ^ 16 := by
  have isNode := Naming.dirOf_eq_some (naming_dir found isDir)
  have counted := forest.formed.counted d (by rw [isNode]; exact Option.some_ne_none _)
  have links : files.naming.links d = node.nlink.toNat := by
    unfold Naming.links
    rw [naming_dir found isDir]
    rfl
  have few : (files.naming.kids d).ncard ≤ limit := by
    have inside : files.naming.kids d ⊆ Set.Iio limit := by
      rintro i ⟨⟨name, bound⟩, -⟩
      apply bounded i
      intro free
      exact forest.formed.present d name i bound (naming_none free)
    calc (files.naming.kids d).ncard ≤ (Set.Iio limit).ncard :=
          Set.ncard_le_ncard inside (Set.finite_Iio limit)
      _ = limit := by rw [← Finset.coe_Iio, Set.ncard_coe_finset, Nat.card_Iio]
  have one := forest.formed.names_ncard_le d
  have more := roomy.extra d
  have room := roomy.limit
  omega

/-! ### Creating -/

omit forest in
/-- A new node has one link. -/
theorem newborn_nlink {d n : Nat} {type major minor : BitVec 16} {parent parent' newborn : Node}
    (born : Node.Born type major minor n d parent parent' newborn) : newborn.nlink = 1 := by
  unfold Node.Born at born
  split at born
  · obtain ⟨-, off, next, -, -, rfl⟩ := born
    rfl
  · rw [born.2]
    rfl

/-- What a new node and its directory are before the entry is made. -/
theorem Forest.born {d n : Nat} {type major minor : BitVec 16} {parent parent' newborn : Node}
    (bounded : files.Bounded limit) (roomy : Roomy limit extra) (isThere : files d = some parent)
    (isDir : parent.type = T_DIR) (positive : 0 < n) (inRange : n < limit)
    (born : Node.Born type major minor n d parent parent' newborn) :
    (newborn.type = T_DIR → newborn.Listed n) ∧ newborn.nlink = 1 ∧
      (∀ dir ∈ newborn.directory, dir = ⟨d, fun _ => none⟩) ∧
      ∃ nlink, parent' = { parent with nlink } ∧
        nlink.toNat = parent.nlink.toNat + Directory.weight newborn.directory := by
  have room := roomy.limit
  have inRange' : d < limit := bounded d (by rw [isThere]; exact Option.some_ne_none _)
  have positive' : 0 < d := by
    apply Nat.pos_of_ne_zero
    rintro rfl
    rw [forest.noZero] at isThere
    cases isThere
  unfold Node.Born at born
  split at born
  · next isNew =>
    subst isNew
    obtain ⟨rfl, dotted⟩ := born
    obtain ⟨listed, newType, nlink, above, bare⟩ :=
      Node.dotted_listed (by omega) (by omega) positive positive' dotted
    refine ⟨fun _ => listed, nlink, ?_, parent.nlink + 1, rfl, ?_⟩
    · intro dir member
      rw [Node.directory_of_dir newType] at member
      cases member
      ext1
      · exact above
      · funext name
        exact bare name
    · have few := forest.links_lt bounded roomy isThere isDir
      rw [Node.directory_of_dir newType, BitVec.toNat_add]
      exact Nat.mod_eq_of_lt few
  · next isFile =>
    obtain ⟨rfl, rfl⟩ := born
    refine ⟨fun isNew => absurd isNew isFile, rfl, ?_, parent'.nlink, rfl, ?_⟩
    · rw [Node.directory_of_file isFile]
      exact nofun
    · rw [Node.directory_of_file isFile]
      rfl

/-- Creating in a directory makes a node of the forest. -/
theorem Forest.createsIn {d : Nat} {name : List Byte} {type major minor : BitVec 16}
    {result : Option Nat} (bounded : files.Bounded limit) (bounded' : files'.BoundedLinks limit)
    (roomy : Roomy limit extra) (fits : Fits name)
    (creates : files.CreatesIn d name type major minor result files') :
    Advance extra files files' := by
  cases creates with
  | known isThere isDir found drops target asked isFile => exact forest.sheds drops.sheds
  | refused isThere isDir found first second =>
      have middle := forest.sheds first.sheds
      exact middle.trans (middle.forest.sheds second.sheds)
  | @made parent parent' newborn off n _ isThere isDir absent positive free born vacant room drops =>
      have apart : d ≠ n := by
        rintro rfl
        rw [isThere] at free
        cases free
      have isNew : files' n = some newborn := by
        rw [drops.other apart.symm, Function.update_of_ne apart.symm, Function.update_self]
      have inRange : n < limit := by
        apply bounded' n newborn isNew
        rw [newborn_nlink born]
        decide
      have limits := roomy.limit
      have small : n < 2 ^ 16 := by omega
      obtain ⟨newListed, newLinks, bare, nlink, rfl, links⟩ :=
        forest.born bounded roomy isThere isDir positive inRange born
      have listed := forest.listed d parent isThere isDir
      have listed' := listed.withLinks nlink
      have vacant' : ({ parent with nlink } : Node).Vacant off := vacant
      have absent' : ({ parent with nlink } : Node).lookup name = none := absent
      have entered := Node.item_enter vacant' room fits absent' small positive listed' isDir
      have made : naming (Function.update (Function.update files n (some newborn)) d
          (some (({ parent with nlink } : Node).enter off (.naming name n)))) =
          files.naming.made d n name parent.nlink.toNat ⟨parent.inumAt DIRENT_SIZE, parent.bound⟩
            newborn.directory := by
        rw [naming_update, naming_update, entered, Node.item, newLinks]
        unfold Naming.made
        rw [← links]
        rfl
      have advance : Advance extra files (Function.update (Function.update files n (some newborn)) d
          (some (({ parent with nlink } : Node).enter off (.naming name n)))) := by
        apply forest.of_run
        · rw [Function.update_of_ne (by rintro rfl; rw [forest.noZero] at isThere; cases isThere),
            Function.update_of_ne (Nat.ne_of_lt positive)]
          exact forest.noZero
        · intro i node found isNodeDir
          by_cases same : i = d
          · subst same
            rw [Function.update_self] at found
            cases found
            exact listed'.enter vacant' room fits absent' small positive
          · rw [Function.update_of_ne same] at found
            by_cases isNew : i = n
            · subst isNew
              rw [Function.update_self] at found
              cases found
              exact newListed isNodeDir
            · rw [Function.update_of_ne isNew] at found
              exact forest.listed i node found isNodeDir
        · apply Relation.ReflTransGen.single
          rw [made]
          exact Naming.Step.make (naming_dir isThere isDir) (Node.bound_eq_none absent)
            (naming_none free) bare
      exact advance.trans (advance.forest.sheds drops.sheds)

/-! ### Removing -/

omit forest in
/-- Taking a link away from what has one. -/
theorem toNat_sub_one {links : BitVec 16} (some : links ≠ 0) :
    (links - 1).toNat = links.toNat - 1 := by
  bv_omega

/-- What a directory binds that holds nothing but its dot entries. -/
theorem Forest.bound_empty {n : Nat} {child : Node} (found : files n = some child)
    (isDir : child.type = T_DIR)
    (empty : ∀ o, child.IsEntry o → 2 * DIRENT_SIZE ≤ o → (child.dirent o).inum = 0)
    (name : List Byte) : child.bound name = none := by
  have listed := forest.listed n child found isDir
  unfold Node.bound Node.answer
  split
  · next asked =>
    rw [Node.lookup_eq_none_iff.mpr]
    · rfl
    · intro o used same
      rw [List.take_of_length_le asked.1] at same
      have first : o ≠ 0 := by
        rintro rfl
        exact asked.2 (Or.inl (same.symm.trans listed.dot))
      have second : o ≠ DIRENT_SIZE := by
        rintro rfl
        exact asked.2 (Or.inr (same.symm.trans listed.dotdot))
      have aligned := used.1.1
      apply used.2 (empty o used.1 _)
      simp only [DIRENT_SIZE] at aligned second ⊢
      omega
  · rfl

/-- The directory of what is removed. -/
theorem Forest.item_without {d off : Nat} {name : List Byte} {parent child : Node}
    (isThere : files d = some parent) (isDir : parent.type = T_DIR) (notDots : ¬ IsDots name)
    (fits : Fits name) (found : parent.lookup name = some off)
    (target : files (parent.inumAt off) = some child) :
    (parent.without child off).Listed d ∧ (parent.without child off).item =
      ⟨parent.nlink.toNat - Directory.weight child.directory,
        some (Directory.rebind ⟨parent.inumAt DIRENT_SIZE, parent.bound⟩ name none)⟩ := by
  have whole : name.take DIRSIZ = name := List.take_of_length_le fits.short
  have notDots' : ¬ IsDots (name.take DIRSIZ) := whole.symm ▸ notDots
  have listed := forest.listed d parent isThere isDir
  unfold Node.without
  rw [Node.weight_directory]
  split
  · next isChildDir =>
    have found' : parent.unlinked.lookup name = some off := found
    have listed' : parent.unlinked.Listed d := listed.withLinks _
    have cleared := Node.item_clear listed' found' notDots' isDir
    rw [whole] at cleared
    have kid := kid_of_lookup isThere isDir notDots fits found target isChildDir
    have linked : parent.nlink ≠ 0 := by
      intro unlinked
      apply forest.formed.linked_of_kid kid
      unfold Naming.links
      rw [naming_dir isThere isDir]
      change parent.nlink.toNat = 0
      rw [unlinked]
      rfl
    refine ⟨listed'.clear found' notDots', cleared.trans ?_⟩
    rw [← toNat_sub_one linked]
    rfl
  · have cleared := Node.item_clear listed found notDots' isDir
    rw [whole] at cleared
    exact ⟨listed.clear found notDots', cleared⟩

/-- Removing from a directory takes the name of a node away. -/
theorem Forest.removesIn {d : Nat} {name : List Byte} {result : Int} (fits : Fits name)
    (removes : files.RemovesIn d name result files') : Advance extra files files' := by
  cases removes with
  | dots isDots drops => exact forest.sheds drops.sheds
  | missing isThere absent drops => exact forest.sheds drops.sheds
  | kept isThere found first second =>
      have middle := forest.sheds first.sheds
      exact middle.trans (middle.forest.sheds second.sheds)
  | @removed parent child off middle _ isThere isDir notDots found apart target linked empty first
      second =>
      have target' : files (parent.inumAt off) = some child := target
      obtain ⟨listed', cleared⟩ := forest.item_without isThere isDir notDots fits found target'
      have hasLink : child.nlink ≠ 0 := by
        rintro none
        rw [none] at linked
        exact absurd linked (by decide)
      have unlinked : child.unlinked.item = ⟨child.nlink.toNat - 1, child.directory⟩ := by
        rw [← toNat_sub_one hasLink]
        rfl
      have removed : naming (Function.update (Function.update files d
          (some (parent.without child off))) (parent.inumAt off) (some child.unlinked)) =
          files.naming.removed d (parent.inumAt off) name parent.nlink.toNat child.nlink.toNat
            ⟨parent.inumAt DIRENT_SIZE, parent.bound⟩ child.directory := by
        rw [naming_update, naming_update, cleared, unlinked]
        rfl
      have advance : Advance extra files (Function.update (Function.update files d
          (some (parent.without child off))) (parent.inumAt off) (some child.unlinked)) := by
        apply forest.of_run
        · have notZero : (0 : Nat) ≠ parent.inumAt off := by
            intro same
            rw [← same, forest.noZero] at target'
            cases target'
          rw [Function.update_of_ne notZero,
            Function.update_of_ne (by rintro rfl; rw [forest.noZero] at isThere; cases isThere)]
          exact forest.noZero
        · intro i node found' isNodeDir
          by_cases isNode : i = parent.inumAt off
          · subst isNode
            rw [Function.update_self] at found'
            cases found'
            exact (forest.listed _ child target' isNodeDir).withLinks _
          · rw [Function.update_of_ne isNode] at found'
            by_cases same : i = d
            · subst same
              rw [Function.update_self] at found'
              cases found'
              exact listed'
            · rw [Function.update_of_ne same] at found'
              exact forest.listed i node found' isNodeDir
        · apply Relation.ReflTransGen.single
          rw [removed]
          apply Naming.Step.remove (naming_dir isThere isDir) _ (naming_eq target')
          · intro dir member nm
            by_cases isChildDir : child.type = T_DIR
            · rw [Node.directory_of_dir isChildDir] at member
              cases member
              exact forest.bound_empty target' isChildDir (empty isChildDir) nm
            · rw [Node.directory_of_file isChildDir] at member
              cases member
          · exact Node.bound_of_lookup fits notDots found
      have lost := (first.sheds.update (parent.inumAt off) (some child.unlinked)).trans second.sheds
      exact advance.trans (advance.forest.sheds lost)

/-! ### Paths -/

/-- Creating a path keeps the forest. -/
theorem Forest.creates {cwd : Nat} {path : CString} {type major minor : BitVec 16}
    {result : Option Nat} (bounded : files.Bounded limit) (bounded' : files'.BoundedLinks limit)
    (roomy : Roomy limit extra)
    (creates : files.Creates cwd path.bytes type major minor result files') :
    Advance extra files files' := by
  cases creates with
  | noParent missing loses => exact forest.sheds loses.sheds
  | inParent parent loses creates =>
      have lost := forest.sheds loses.sheds
      apply lost.trans (lost.forest.createsIn _ bounded' roomy (resolve_fits parent) creates)
      intro i present
      obtain ⟨node, found⟩ := Option.ne_none_iff_exists'.mp present
      apply bounded i
      rw [loses.within found]
      exact Option.some_ne_none _

/-- Removing a path keeps the forest. -/
theorem Forest.removes {cwd : Nat} {path : CString} {result : Int}
    (removes : files.Removes cwd path.bytes result files') : Advance extra files files' := by
  cases removes with
  | noParent missing loses => exact forest.sheds loses.sheds
  | inParent parent loses removes =>
      have lost := forest.sheds loses.sheds
      exact lost.trans (lost.forest.removesIn (resolve_fits parent) removes)

/-- The content of a regular file changes. -/
theorem Forest.update {n : Nat} {node node' : Node} (found : files n = some node)
    (isFile : node.type ≠ T_DIR) (type : node'.type = node.type) (nlink : node'.nlink = node.nlink) :
    Advance extra files (Function.update files n (some node')) := by
  have isFile' : node'.type ≠ T_DIR := type ▸ isFile
  have same : naming (Function.update files n (some node')) = files.naming := by
    rw [naming_update, Node.item, nlink, Node.directory_of_file isFile',
      ← Node.directory_of_file isFile]
    apply Function.update_eq_self_iff.mpr
    exact (naming_eq found).symm
  apply forest.of_run
  · rw [Function.update_of_ne (by rintro rfl; rw [forest.noZero] at found; cases found)]
    exact forest.noZero
  · intro i other found' isDir
    by_cases isNode : i = n
    · subst isNode
      rw [Function.update_self] at found'
      cases found'
      exact absurd isDir isFile'
    · rw [Function.update_of_ne isNode] at found'
      exact forest.listed i other found' isDir
  · rw [same]

end Forest

/-! ## What lies below the root -/

/-- The root, or bound below it. -/
def Attached (files : Files) (i : Nat) : Prop := Relation.ReflTransGen files.naming.Parent ROOTINO i

section Attached

variable {extra : Nat → Nat} (forest : files.Forest extra)

include forest

theorem Forest.attached_linked {i : Nat} (attached : files.Attached i) :
    files.naming.links i ≠ 0 := by
  cases attached with
  | refl => exact forest.formed.linked_of_extra forest.formed.anchored
  | tail _ last =>
      obtain ⟨name, bound⟩ := last
      exact forest.formed.linked bound

/-- What lies below the root is there and has a link. -/
theorem Forest.attached_node {i : Nat} (attached : files.Attached i) :
    ∃ node, files i = some node ∧ node.nlink ≠ 0 := by
  have linked := forest.attached_linked attached
  unfold Naming.links naming at linked
  cases found : files i with
  | none =>
      rw [found] at linked
      exact absurd rfl linked
  | some node =>
      refine ⟨node, rfl, ?_⟩
      intro unlinked
      rw [found] at linked
      apply linked
      change node.nlink.toNat = 0
      rw [unlinked]
      rfl

/-- The directory above one below the root lies below the root. -/
theorem Forest.attached_above {d : Nat} {node : Node} (attached : files.Attached d)
    (found : files d = some node) (isDir : node.type = T_DIR) :
    files.Attached (node.inumAt DIRENT_SIZE) := by
  have contents := Naming.dirOf_eq_some (naming_dir found isDir)
  cases attached with
  | refl =>
      obtain ⟨dir, isRoot, above⟩ := forest.formed.top
      rw [contents] at isRoot
      cases isRoot
      have up : node.inumAt DIRENT_SIZE = ROOTINO := above
      rw [up]
      exact .refl
  | tail before last =>
      obtain ⟨name, bound⟩ := last
      have above := forest.formed.up _ name d _ bound contents
      change node.inumAt DIRENT_SIZE = _ at above
      rw [above]
      exact before

/-- The entries of what lies below the root lead to what lies below the root. -/
theorem Forest.attached_names {d j : Nat} (attached : files.Attached d) (names : files.Names d j) :
    files.Attached j := by
  obtain ⟨node, off, found, isDir, entry, inUse, rfl⟩ := names
  have listed := forest.listed d node found isDir
  have used : node.Used off := ⟨entry, inUse⟩
  by_cases first : off = 0
  · subst first
    change files.Attached (node.inumAt 0)
    rw [listed.itself]
    exact attached
  · by_cases second : off = DIRENT_SIZE
    · subst second
      exact forest.attached_above attached found isDir
    · have fits := node.fits_nameAt off
      have notDots : ¬ IsDots (node.nameAt off) := by
        rintro (isDot | isDotdot)
        · exact first (listed.distinct off 0 used listed.here (isDot.trans listed.dot.symm))
        · exact second (listed.distinct off DIRENT_SIZE used listed.above
            (isDotdot.trans listed.dotdot.symm))
      apply attached.tail
      refine ⟨node.nameAt off, child_iff.mpr ⟨node, found, isDir, ?_⟩⟩
      exact Node.bound_of_lookup fits notDots
        (listed.lookup_eq used (List.take_of_length_le fits.short).symm)

theorem Forest.attached_leads {d j : Nat} (attached : files.Attached d) (leads : files.Leads d j) :
    files.Attached j := by
  induction leads with
  | refl => exact attached
  | tail _ last ih => exact forest.attached_names ih last

/-- Walking below the root loses nothing. -/
theorem Forest.loses_eq {start : Nat} (attached : files.Attached start)
    (loses : files.Loses start files') : files' = files := by
  funext j
  rcases loses j with same | ⟨-, leads, node, found, unlinked⟩
  · exact same
  · obtain ⟨node', found', linked⟩ := forest.attached_node (forest.attached_leads attached leads)
    rw [found] at found'
    cases found'
    exact absurd unlinked linked

/-- What lies below the root is not dropped. -/
theorem Forest.drops_eq {i : Nat} (attached : files.Attached i) (drops : files.Drops i files') :
    files' = files := by
  rcases drops with same | ⟨-, node, found, unlinked⟩
  · exact same
  · obtain ⟨node', found', linked⟩ := forest.attached_node attached
    rw [found] at found'
    cases found'
    exact absurd unlinked linked

end Attached

/-- Where a path from below the root leads. -/
theorem Forest.attached_resolve {extra : Nat → Nat} (forest : files.Forest extra) {cwd d : Nat}
    {path rest : List Byte} {parent : Bool} (attached : files.Attached (startOf cwd path))
    (leads : files.resolve cwd path parent = some (d, rest)) : files.Attached d :=
  forest.attached_leads attached (Files.walk_leads leads)

/-! ## What a directory answers -/

/-- The inode that a name leads to in a directory. -/
def find (files : Files) (d : Nat) (name : List Byte) : Option Nat :=
  (files d).bind fun node => node.answer name

theorem find_eq {d : Nat} {node : Node} (found : files d = some node) (name : List Byte) :
    files.find d name = node.answer name := by
  unfold find
  rw [found]
  rfl

theorem find_eq_none {d : Nat} (gone : files d = none) (name : List Byte) :
    files.find d name = none := by
  unfold find
  rw [gone]
  rfl

/-- What the forest binds is found. -/
theorem find_of_child {d n : Nat} {name : List Byte} (bound : files.naming.child d name = some n) :
    files.find d name = some n := by
  obtain ⟨node, found, -, isBound⟩ := child_iff.mp bound
  unfold Node.bound at isBound
  split at isBound
  · rw [find_eq found]
    exact isBound
  · cases isBound

/-- Only the first bytes of a name count. -/
theorem find_take {d : Nat} (name : List Byte) :
    files.find d name = files.find d (name.take DIRSIZ) := by
  have same : name.take DIRSIZ = (name.take DIRSIZ).take DIRSIZ := by
    rw [List.take_take, min_self]
  unfold find Node.answer
  congr 1
  funext node
  rw [Node.lookup_congr same]

/-- A name is bound to an inode.  What was found is found, and no other name leads elsewhere. -/
structure Binds (files files' : Files) (d : Nat) (name : List Byte) (n : Nat) : Prop where
  bound : files'.find d name = some n
  keeps : ∀ i nm m, files.find i nm = some m → files'.find i nm = some m
  others : ∀ i nm, files i ≠ none → ¬ (i = d ∧ nm.take DIRSIZ = name) →
    files'.find i nm = files.find i nm
  stays : ∀ i node, files i = some node → ∃ node', files' i = some node' ∧ node'.type = node.type

/-- A name is unbound.  The node it led to may be gone, and no other name leads elsewhere. -/
structure Unbinds (files files' : Files) (d : Nat) (name : List Byte) (n : Nat) : Prop where
  bound : files.find d name = some n
  unbound : files'.find d name = none
  others : ∀ i nm, files' i ≠ none → ¬ (i = d ∧ nm.take DIRSIZ = name) →
    files'.find i nm = files.find i nm
  stays : ∀ i, i ≠ n → files i ≠ none → files' i ≠ none
  within : ∀ i, files' i ≠ none → files i ≠ none
  bare : ∀ node, files n = some node → node.type = T_DIR → ∀ nm, node.bound nm = none

section Changes

variable {extra : Nat → Nat} (forest : files.Forest extra) {d : Nat} {name : List Byte}
  (attached : files.Attached d)

include forest attached

/-- Where creating returns nothing it changes nothing. -/
theorem Forest.createsIn_none {type major minor : BitVec 16}
    (creates : files.CreatesIn d name type major minor none files') : files' = files := by
  cases creates with
  | refused isThere isDir found first second =>
      have same := forest.drops_eq attached first
      subst same
      obtain ⟨used, -⟩ := Node.lookup_used found
      have names := forest.attached_names attached ⟨_, _, isThere, isDir, used.1, used.2, rfl⟩
      exact forest.drops_eq names second

/-- Where removing fails it changes nothing. -/
theorem Forest.removesIn_fails {result : Int} (fails : result ≠ 0)
    (dirOnly : ∀ node, files d = some node → node.type = T_DIR)
    (removes : files.RemovesIn d name result files') : files' = files := by
  cases removes with
  | dots isDots drops => exact forest.drops_eq attached drops
  | missing isThere absent drops => exact forest.drops_eq attached drops
  | kept isThere found first second =>
      obtain ⟨used, -⟩ := Node.lookup_used found
      have names := forest.attached_names attached
        ⟨_, _, isThere, dirOnly _ isThere, used.1, used.2, rfl⟩
      have same := forest.drops_eq names first
      subst same
      exact forest.drops_eq attached second
  | removed => exact absurd rfl fails

/-- Where creating returns an inode, the name leads to it. -/
theorem Forest.createsIn_some {limit n : Nat} {type major minor : BitVec 16}
    (bounded : files.Bounded limit) (bounded' : files'.BoundedLinks limit)
    (roomy : Roomy limit extra) (fits : Fits name)
    (creates : files.CreatesIn d name type major minor (some n) files') :
    Binds files files' d name n := by
  have whole : name.take DIRSIZ = name := List.take_of_length_le fits.short
  cases creates with
  | @known parent child off _ isThere isDir found drops target asked isFile =>
      have same := forest.drops_eq attached drops
      subst same
      constructor
      · rw [find_eq isThere, Node.answer, found]
        rfl
      · exact fun i nm m => id
      · exact fun i nm _ _ => rfl
      · exact fun i node isNode => ⟨node, isNode, rfl⟩
  | @made parent parent' newborn off n _ isThere isDir absent positive free born vacant room drops =>
      have apart : d ≠ n := by
        rintro rfl
        rw [isThere] at free
        cases free
      have isNew : files' n = some newborn := by
        rw [drops.other apart.symm, Function.update_of_ne apart.symm, Function.update_self]
      have inRange : n < limit := by
        apply bounded' n newborn isNew
        rw [newborn_nlink born]
        decide
      have limits := roomy.limit
      have small : n < 2 ^ 16 := by omega
      obtain ⟨-, -, -, nlink, rfl, links⟩ :=
        forest.born bounded roomy isThere isDir positive inRange born
      have listed : ({ parent with nlink } : Node).Listed d :=
        (forest.listed d parent isThere isDir).withLinks nlink
      have vacant' : ({ parent with nlink } : Node).Vacant off := vacant
      have absent' : ({ parent with nlink } : Node).lookup name = none := absent
      have entered := Node.answer_enter vacant' room fits absent' small positive listed
      obtain ⟨node, isNode, linked⟩ := forest.attached_node attached
      rw [isThere] at isNode
      cases isNode
      have here : files' d = some (({ parent with nlink } : Node).enter off (.naming name n)) := by
        rcases drops with rfl | ⟨-, node, isNode, unlinked⟩
        · rw [Function.update_self]
        · rw [Function.update_self] at isNode
          cases isNode
          have zero : nlink = 0 := unlinked
          rw [zero] at links
          exfalso
          apply linked
          apply BitVec.eq_of_toNat_eq
          change 0 = _ at links
          change parent.nlink.toNat = 0
          omega
      have there : ∀ {i : Nat}, i ≠ d → i ≠ n → files' i = files i := by
        intro i other differ
        rw [drops.other other, Function.update_of_ne other, Function.update_of_ne differ]
      have notNew : ∀ {i : Nat}, files i ≠ none → i ≠ n := by
        rintro i present rfl
        exact present free
      have others : ∀ i nm, files i ≠ none → ¬ (i = d ∧ nm.take DIRSIZ = name) →
          files'.find i nm = files.find i nm := by
        intro i nm present differ
        by_cases same : i = d
        · subst same
          rw [find_eq here, entered, if_neg fun equal => differ ⟨rfl, equal⟩, find_eq isThere]
          rfl
        · unfold find
          rw [there same (notNew present)]
      constructor
      · rw [find_eq here, entered, if_pos whole]
      · intro i nm m found
        have present : files i ≠ none := fun gone => by
          rw [find_eq_none gone] at found
          cases found
        rw [others i nm present]
        · exact found
        · rintro ⟨rfl, same⟩
          rw [find_eq isThere, Node.answer, Node.lookup_congr (same.trans whole.symm), absent] at found
          cases found
      · exact others
      · intro i node isNode
        by_cases same : i = d
        · subst same
          rw [isThere] at isNode
          cases isNode
          exact ⟨_, here, rfl⟩
        · refine ⟨node, ?_, rfl⟩
          rw [there same (notNew (isNode ▸ Option.some_ne_none node)), isNode]

/-- A directory below the root keeps a link when something is removed from it. -/
theorem Forest.without_linked {off : Nat} {parent child : Node} (isThere : files d = some parent)
    (isDir : parent.type = T_DIR) (notDots : ¬ IsDots name) (fits : Fits name)
    (found : parent.lookup name = some off) (target : files (parent.inumAt off) = some child) :
    (parent.without child off).nlink ≠ 0 := by
  have item := (forest.item_without isThere isDir notDots fits found target).2
  have links : (parent.without child off).nlink.toNat =
      parent.nlink.toNat - Directory.weight child.directory := congrArg Item.links item
  have known : files.naming.links d = parent.nlink.toNat := by
    unfold Naming.links
    rw [naming_eq isThere]
    rfl
  have enough : Directory.weight child.directory < parent.nlink.toNat := by
    rw [← known, Node.weight_directory]
    split
    · next isChildDir =>
      apply forest.formed.linked_twice attached
      exact kid_of_lookup isThere isDir notDots fits found target isChildDir
    · exact Nat.pos_of_ne_zero (forest.attached_linked attached)
  intro unlinked
  rw [unlinked] at links
  change 0 = _ at links
  omega

/-- Where removing succeeds, the name leads nowhere. -/
theorem Forest.removesIn_succeeds (fits : Fits name)
    (removes : files.RemovesIn d name 0 files') : ∃ n, Unbinds files files' d name n := by
  have whole : name.take DIRSIZ = name := List.take_of_length_le fits.short
  cases removes with
  | @removed parent child off middle _ isThere isDir notDots found apart target linked empty first
      second =>
      have target' : files (parent.inumAt off) = some child := target
      have listed := forest.listed d parent isThere isDir
      have answers : ∀ nm, (parent.without child off).answer nm =
          if nm.take DIRSIZ = name then none else parent.answer nm := by
        intro nm
        have cleared := Node.answer_clear listed found (whole.symm ▸ notDots) nm
        rw [whole] at cleared
        rw [← cleared]
        unfold Node.without
        split <;> rfl
      have here : files' d = some (parent.without child off) := by
        rw [second.other apart.symm, Function.update_of_ne apart.symm]
        rcases first with rfl | ⟨-, node, isNode, unlinked⟩
        · rw [Function.update_self]
        · rw [Function.update_self] at isNode
          cases isNode
          exact absurd unlinked (forest.without_linked attached isThere isDir notDots fits found
            target')
      have there : ∀ {i : Nat}, i ≠ d → i ≠ parent.inumAt off → files' i = files i := by
        intro i other differ
        have differ : i ≠ (parent.dirent off).inum.toNat := differ
        rw [second.other differ, Function.update_of_ne differ, first.other other,
          Function.update_of_ne other]
      have atNode : files' (parent.inumAt off) ≠ none →
          files' (parent.inumAt off) = some child.unlinked := by
        intro present
        rcases second with rfl | ⟨rfl, -⟩
        · exact Function.update_self _ _ _
        · exact absurd (Function.update_self _ _ _) present
      refine ⟨parent.inumAt off, ?_⟩
      constructor
      · rw [find_eq isThere, Node.answer, found]
        rfl
      · rw [find_eq here, answers, if_pos whole]
      · intro i nm present differ
        by_cases same : i = d
        · subst same
          rw [find_eq here, answers, if_neg fun equal => differ ⟨rfl, equal⟩, find_eq isThere]
        · by_cases isNode : i = parent.inumAt off
          · subst isNode
            rw [find_eq (atNode present), find_eq target']
            rfl
          · unfold find
            rw [there same isNode]
      · intro i differ present
        by_cases same : i = d
        · subst same
          rw [here]
          exact Option.some_ne_none _
        · rw [there same differ]
          exact present
      · intro i present
        by_cases same : i = d
        · rw [same, isThere]
          exact Option.some_ne_none _
        · by_cases isNode : i = parent.inumAt off
          · rw [isNode, target']
            exact Option.some_ne_none _
          · rw [← there same isNode]
            exact present
      · intro node isNode isNodeDir
        rw [target'] at isNode
        cases isNode
        exact forest.bound_empty target' isNodeDir (empty isNodeDir)

end Changes

/-! ## Where paths lead afterwards -/

section Paths

variable {d n : Nat} {name : List Byte}

/-- A turn of a walk goes where the directory answers. -/
theorem walk_succ {parent : Bool} {fuel i : Nat} {path nm rest : List Byte} {node : Node}
    (element : skipelem path = some (nm, rest)) (found : files i = some node)
    (isDir : node.type = T_DIR) (further : ¬ (parent = true ∧ rest = [])) :
    files.walk parent (fuel + 1) i path =
      (files.find i nm).bind fun m => files.walk parent fuel m rest := by
  rw [walk, element, find_eq found]
  dsimp only
  rw [found, Option.bind_some, if_neg (not_not.mpr isDir), if_neg further]
  unfold Node.answer
  cases node.lookup nm <;> rfl

/-- The last turn of a walk to a parent. -/
theorem walk_last {fuel i : Nat} {path nm : List Byte} {node : Node}
    (element : skipelem path = some (nm, [])) (found : files i = some node)
    (isDir : node.type = T_DIR) : files.walk true (fuel + 1) i path = some (i, nm) := by
  rw [walk, element]
  dsimp only
  rw [found, Option.bind_some, if_neg (not_not.mpr isDir), if_pos ⟨rfl, rfl⟩]

/-- A walk that goes on is in a directory. -/
theorem isDir_of_walk {parent : Bool} {fuel i : Nat} {path nm rest : List Byte}
    {result : Nat × List Byte} (element : skipelem path = some (nm, rest))
    (leads : files.walk parent (fuel + 1) i path = some result) :
    ∃ node, files i = some node ∧ node.type = T_DIR := by
  rw [walk, element] at leads
  obtain ⟨node, found, turn⟩ := Option.bind_eq_some_iff.mp leads
  refine ⟨node, found, ?_⟩
  by_contra isFile
  rw [if_pos isFile] at turn
  cases turn

/-- Where the parent of a path leads, the path leads to what its last name is bound to. -/
theorem walk_to_last {fuel i : Nat} {path : List Byte} (enough : path.length < fuel)
    (leads : files.walk true fuel i path = some (d, name)) :
    files.walk false fuel i path = (files.find d name).map fun n => (n, []) := by
  induction fuel generalizing i path with
  | zero => cases leads
  | succ fuel ih =>
      cases element : skipelem path with
      | none =>
          rw [walk, element] at leads
          cases leads
      | some turn =>
          obtain ⟨nm, rest⟩ := turn
          have shorter := skipelem_length element
          obtain ⟨node, found, isDir⟩ := isDir_of_walk element leads
          rw [walk_succ element found isDir (fun both => Bool.noConfusion both.1)]
          by_cases last : rest = []
          · subst last
            rw [walk_last element found isDir] at leads
            cases leads
            cases fuel with
            | zero => omega
            | succ fuel => cases files.find d name <;> rfl
          · rw [walk_succ element found isDir (fun both => last both.2)] at leads
            obtain ⟨m, isNext, further⟩ := Option.bind_eq_some_iff.mp leads
            rw [isNext, Option.bind_some]
            exact ih (by omega) further

/-- What was found is found, and what was there is there. -/
structure Grows (files files' : Files) : Prop where
  keeps : ∀ i nm m, files.find i nm = some m → files'.find i nm = some m
  stays : ∀ i node, files i = some node → ∃ node', files' i = some node' ∧ node'.type = node.type

theorem Binds.grows (binds : Binds files files' d name n) : files.Grows files' :=
  ⟨binds.keeps, binds.stays⟩

/-- A path leads where it led. -/
theorem walk_grows (grows : files.Grows files') {parent : Bool} {fuel i : Nat} {path : List Byte}
    {result : Nat × List Byte} (leads : files.walk parent fuel i path = some result) :
    files'.walk parent fuel i path = some result := by
  induction fuel generalizing i path with
  | zero => cases leads
  | succ fuel ih =>
      cases element : skipelem path with
      | none =>
          rw [walk, element] at leads ⊢
          exact leads
      | some turn =>
          obtain ⟨nm, rest⟩ := turn
          obtain ⟨node, found, isDir⟩ := isDir_of_walk element leads
          obtain ⟨node', found', type⟩ := grows.stays i node found
          have isDir' : node'.type = T_DIR := type.trans isDir
          by_cases last : parent = true ∧ rest = []
          · obtain ⟨rfl, rfl⟩ := last
            rw [walk_last element found isDir] at leads
            rw [walk_last element found' isDir']
            exact leads
          · rw [walk_succ element found isDir last] at leads
            rw [walk_succ element found' isDir' last]
            obtain ⟨m, isNext, further⟩ := Option.bind_eq_some_iff.mp leads
            rw [grows.keeps i nm m isNext, Option.bind_some]
            exact ih further

/-- Once the last name of a path is bound, the path leads to what it is bound to. -/
theorem walk_bound (binds : Binds files files' d name n) {fuel i : Nat} {path : List Byte}
    (enough : path.length < fuel) (leads : files.walk true fuel i path = some (d, name)) :
    files'.walk false fuel i path = some (n, []) := by
  rw [walk_to_last enough (walk_grows binds.grows leads), binds.bound]
  rfl

/-- Once the last name of a path is unbound, the path leads nowhere. -/
theorem walk_unbound (unbinds : Unbinds files files' d name n) {fuel i : Nat} {path : List Byte}
    (leads : files.walk true fuel i path = some (d, name)) :
    files'.walk false fuel i path = none := by
  induction fuel generalizing i path with
  | zero => cases leads
  | succ fuel ih =>
      cases element : skipelem path with
      | none =>
          rw [walk, element] at leads
          cases leads
      | some turn =>
          obtain ⟨nm, rest⟩ := turn
          obtain ⟨node, found, isDir⟩ := isDir_of_walk element leads
          cases here : files' i with
          | none =>
              rw [walk, element]
              dsimp only
              rw [here]
              rfl
          | some node' =>
              by_cases isDir' : node'.type = T_DIR
              · rw [walk_succ element here isDir' (fun both => Bool.noConfusion both.1)]
                by_cases last : rest = []
                · subst last
                  rw [walk_last element found isDir] at leads
                  cases leads
                  rw [unbinds.unbound]
                  rfl
                · rw [walk_succ element found isDir (fun both => last both.2)] at leads
                  obtain ⟨m, isNext, further⟩ := Option.bind_eq_some_iff.mp leads
                  by_cases same : i = d ∧ nm.take DIRSIZ = name
                  · obtain ⟨rfl, rfl⟩ := same
                    rw [find_take, unbinds.unbound]
                    rfl
                  · rw [unbinds.others i nm (here ▸ Option.some_ne_none node') same, isNext,
                      Option.bind_some]
                    exact ih further
              · rw [walk, element]
                dsimp only
                rw [here, Option.bind_some, if_pos isDir']

end Paths

/-! ## Files whose names are listed -/

/-- The directories of the files, and their names (directory, name and inode), are those of two
lists. -/
structure Listing (dirs : List Nat) (names : List (Nat × List Byte × Nat)) (files : Files) :
    Prop where
  child : ∀ {d name n}, files.naming.child d name = some n ↔ (d, name, n) ∈ names
  isDir : ∀ {i}, files.naming.dirOf i ≠ none ↔ i ∈ dirs

/-- The places where a list binds an inode. -/
def placesIn (names : List (Nat × List Byte × Nat)) (i : Nat) : Finset (Nat × List Byte) :=
  ((names.filter fun place => place.2.2 = i).map fun place => (place.1, place.2.1)).toFinset

/-- The directories that are bound in a directory. -/
def kidsIn (dirs : List Nat) (names : List (Nat × List Byte × Nat)) (d : Nat) : Finset Nat :=
  ((names.filter fun place => place.1 = d ∧ place.2.2 ∈ dirs).map fun place => place.2.2).toFinset

section Listing

variable {dirs : List Nat} {names : List (Nat × List Byte × Nat)}
  (listing : files.Listing dirs names)

include listing

theorem Listing.names_eq (i : Nat) : files.naming.names i = placesIn names i := by
  ext ⟨d, name⟩
  rw [Finset.mem_coe, placesIn, List.mem_toFinset, List.mem_map]
  constructor
  · intro bound
    exact ⟨(d, name, i), List.mem_filter.mpr ⟨listing.child.mp bound, decide_eq_true rfl⟩, rfl⟩
  · rintro ⟨⟨d', name', i'⟩, member, same⟩
    obtain ⟨listed, isNode⟩ := List.mem_filter.mp member
    obtain rfl : i' = i := of_decide_eq_true isNode
    cases same
    exact listing.child.mpr listed

theorem Listing.kids_eq (d : Nat) : files.naming.kids d = kidsIn dirs names d := by
  ext i
  rw [Finset.mem_coe, kidsIn, List.mem_toFinset, List.mem_map]
  constructor
  · rintro ⟨⟨name, bound⟩, isDir⟩
    have known := listing.isDir.mp isDir
    exact ⟨(d, name, i), List.mem_filter.mpr ⟨listing.child.mp bound,
      decide_eq_true ⟨rfl, known⟩⟩, rfl⟩
  · rintro ⟨⟨d', name, i'⟩, member, rfl⟩
    obtain ⟨listed, holds⟩ := List.mem_filter.mp member
    obtain ⟨rfl, known⟩ : d' = d ∧ i' ∈ dirs := of_decide_eq_true holds
    exact ⟨⟨name, listing.child.mpr listed⟩, listing.isDir.mpr known⟩

/-- Such files are a forest if every name leads to a higher inode, none is bound twice, and the
links are right. -/
theorem Listing.wellFormed {extra : Nat → Nat} {limit : Nat}
    (finite : ∀ i, files i ≠ none → i ≤ limit)
    (top : ∃ dir, files.naming.dirOf ROOTINO = some dir ∧ dir.up = ROOTINO)
    (places : ∀ place ∈ names, files.naming place.2.2 ≠ none ∧ place.2.2 ≠ ROOTINO ∧
      place.1 < place.2.2)
    (once : ∀ place ∈ names, ∀ other ∈ names, place.2.2 = other.2.2 → place = other)
    (up : ∀ place ∈ names, ∀ dir, files.naming.dirOf place.2.2 = some dir → dir.up = place.1)
    (single : ∀ place ∈ names, place.2.2 ∉ dirs → files.naming.links place.2.2 = 1)
    (counted : ∀ i ∈ dirs, files.naming.links i =
      (placesIn names i).card + (kidsIn dirs names i).card + extra i)
    (standing : ∀ i, extra i ≠ 0 → i ∈ dirs) (anchored : extra ROOTINO ≠ 0) :
    files.naming.WellFormed ROOTINO extra := by
  constructor
  case finite =>
    apply (Set.finite_Iic limit).subset
    intro i present
    obtain ⟨item, isItem⟩ := Option.ne_none_iff_exists'.mp present
    obtain ⟨node, found, -⟩ := Option.map_eq_some_iff.mp isItem
    exact finite i (found ▸ Option.some_ne_none node)
  case top => exact top
  case unnamed => exact fun d name bound => (places _ (listing.child.mp bound)).2.1 rfl
  case present => exact fun d name i bound => (places _ (listing.child.mp bound)).1
  case once =>
    intro i place bound other bound'
    have same := once _ (listing.child.mp bound) _ (listing.child.mp bound') rfl
    have parts := Prod.ext_iff.mp same
    exact Prod.ext parts.1 (Prod.ext_iff.mp parts.2).1
  case up => exact fun d name i dir bound isDir => up _ (listing.child.mp bound) dir isDir
  case files =>
    intro d name i bound noDir
    exact single _ (listing.child.mp bound) fun known => listing.isDir.mpr known noDir
  case counted =>
    intro i isDir
    rw [listing.names_eq, listing.kids_eq, Set.ncard_coe_finset, Set.ncard_coe_finset]
    exact counted i (listing.isDir.mp isDir)
  case standing => exact fun i more => listing.isDir.mpr (standing i more)
  case anchored => exact anchored
  case grounded =>
    apply Subrelation.wf _ Nat.lt_wfRel.wf
    rintro d i ⟨name, bound⟩
    exact (places _ (listing.child.mp bound)).2.2

end Listing

end Files

end Notux.Fs
