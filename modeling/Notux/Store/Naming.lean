import Mathlib.Data.Set.Card
import Mathlib.Logic.Relation

/-!
# Nodes and their names

Directories bind names to nodes, every node counts its links, and every directory knows the
directory above it.  A new node is bound to a free name, a name is taken from a file or from a
directory that binds nothing, and a node without links may be gone.

Steps of this kind keep a forest: no node has two names, the directory above a node is the one
that binds it, a directory has a link for its name and one for each directory in it, and going
up from what lies below the root ends at the root.
-/

namespace Notux.Store

/-- What a directory holds: the directory above it, and the node behind each name. -/
@[ext]
structure Directory (ι N : Type) where
  up : ι
  child : N → Option ι

/-- A node: its links, and what it holds if it is a directory. -/
@[ext]
structure Item (ι N : Type) where
  links : Nat
  directory : Option (Directory ι N)

/-- The nodes there are. -/
abbrev Naming (ι N : Type) := ι → Option (Item ι N)

/-- The links that a node gives to the directory that binds it. -/
def Directory.weight {ι N : Type} (directory : Option (Directory ι N)) : Nat :=
  directory.elim 0 fun _ => 1

/-- The directory with another node, or none, behind a name. -/
def Directory.rebind {ι N : Type} [DecidableEq N] (dir : Directory ι N) (name : N)
    (target : Option ι) : Directory ι N :=
  { dir with child := Function.update dir.child name target }

namespace Naming

variable {ι N : Type}

/-- What a node holds if it is a directory. -/
def dirOf (t : Naming ι N) (i : ι) : Option (Directory ι N) := (t i).bind Item.directory

/-- The node behind a name in a directory. -/
def child (t : Naming ι N) (d : ι) (name : N) : Option ι :=
  (t.dirOf d).bind fun dir => dir.child name

/-- The links of a node. -/
def links (t : Naming ι N) (i : ι) : Nat := (t i).elim 0 Item.links

/-- The places where a node is bound. -/
def names (t : Naming ι N) (i : ι) : Set (ι × N) := {place | t.child place.1 place.2 = some i}

/-- The directories that are bound in a directory. -/
def kids (t : Naming ι N) (d : ι) : Set ι :=
  {i | (∃ name, t.child d name = some i) ∧ t.dirOf i ≠ none}

/-- A directory binds a node. -/
def Parent (t : Naming ι N) (d i : ι) : Prop := ∃ name, t.child d name = some i

/-- The directory above. -/
def Above (t : Naming ι N) (i d : ι) : Prop := ∃ dir, t.dirOf i = some dir ∧ dir.up = d

/-! ## Well-formed forests -/

/-- A forest with a root.  Some directories have links more than their names and directories
account for; these are there for good. -/
structure WellFormed (root : ι) (extra : ι → Nat) (t : Naming ι N) : Prop where
  finite : {i | t i ≠ none}.Finite
  top : ∃ dir, t.dirOf root = some dir ∧ dir.up = root
  unnamed : ∀ d name, t.child d name ≠ some root
  present : ∀ d name i, t.child d name = some i → t i ≠ none
  once : ∀ i, (t.names i).Subsingleton
  up : ∀ d name i dir, t.child d name = some i → t.dirOf i = some dir → dir.up = d
  files : ∀ d name i, t.child d name = some i → t.dirOf i = none → t.links i = 1
  counted : ∀ i, t.dirOf i ≠ none → t.links i = (t.names i).ncard + (t.kids i).ncard + extra i
  standing : ∀ i, extra i ≠ 0 → t.dirOf i ≠ none
  anchored : extra root ≠ 0
  grounded : WellFounded t.Parent

section WellFormed

variable {root : ι} {extra : ι → Nat} {t t' : Naming ι N}

theorem dirOf_eq_none {i : ι} (free : t i = none) : t.dirOf i = none := by
  unfold dirOf
  rw [free]
  rfl

theorem dirOf_eq_some {i : ι} {count : Nat} {directory : Option (Directory ι N)}
    (found : t i = some ⟨count, directory⟩) : t.dirOf i = directory := by
  unfold dirOf
  rw [found]
  rfl

theorem child_eq_none {d : ι} (noDir : t.dirOf d = none) (name : N) : t.child d name = none := by
  unfold child
  rw [noDir]
  rfl

theorem child_eq {d : ι} {dir : Directory ι N} (isDir : t.dirOf d = some dir) (name : N) :
    t.child d name = dir.child name := by
  unfold child
  rw [isDir]
  rfl

namespace WellFormed

variable (formed : t.WellFormed root extra)

include formed

theorem kids_finite (d : ι) : (t.kids d).Finite := by
  apply formed.finite.subset
  rintro i ⟨-, isDir⟩ free
  exact isDir (dirOf_eq_none free)

theorem names_eq {d i : ι} {name : N} (bound : t.child d name = some i) :
    t.names i = {(d, name)} :=
  (formed.once i).eq_singleton_of_mem bound

/-- No node has two names. -/
theorem names_ncard_le (i : ι) : (t.names i).ncard ≤ 1 := by
  rcases (formed.once i).eq_empty_or_singleton with none | ⟨place, one⟩
  · rw [none, Set.ncard_empty]
    exact Nat.zero_le 1
  · rw [one, Set.ncard_singleton]

/-- A node with a name has a link. -/
theorem linked {d i : ι} {name : N} (bound : t.child d name = some i) : t.links i ≠ 0 := by
  by_cases isDir : t.dirOf i = none
  · rw [formed.files d name i bound isDir]
    exact one_ne_zero
  · have one := formed.counted i isDir
    rw [formed.names_eq bound, Set.ncard_singleton] at one
    omega

/-- A directory that binds a directory has a link. -/
theorem linked_of_kid {d i : ι} (kid : i ∈ t.kids d) : t.links d ≠ 0 := by
  obtain ⟨⟨name, bound⟩, isDir⟩ := kid
  have positive : 0 < (t.kids d).ncard :=
    (Set.ncard_pos (formed.kids_finite d)).mpr ⟨i, ⟨name, bound⟩, isDir⟩
  have known : t.dirOf d ≠ none := fun noDir => by
    rw [child_eq_none noDir] at bound
    cases bound
  have count := formed.counted d known
  omega

/-- What lies below the root and binds a directory has two links. -/
theorem linked_twice {d i : ι} (below : Relation.ReflTransGen t.Parent root d) (kid : i ∈ t.kids d) :
    2 ≤ t.links d := by
  have positive : 0 < (t.kids d).ncard := (Set.ncard_pos (formed.kids_finite d)).mpr ⟨i, kid⟩
  have known : t.dirOf d ≠ none := by
    obtain ⟨⟨name, bound⟩, -⟩ := kid
    intro noDir
    rw [child_eq_none noDir] at bound
    cases bound
  have count := formed.counted d known
  cases below with
  | refl =>
      have anchored := formed.anchored
      omega
  | tail _ last =>
      obtain ⟨name, bound⟩ := last
      rw [formed.names_eq bound, Set.ncard_singleton] at count
      omega

/-- What stands for good has a link. -/
theorem linked_of_extra {i : ι} (more : extra i ≠ 0) : t.links i ≠ 0 := by
  have count := formed.counted i (formed.standing i more)
  omega

/-- The directory above one that is bound binds it. -/
theorem above_of_child {d i : ι} {name : N} (bound : t.child d name = some i)
    (isDir : t.dirOf i ≠ none) : t.Above i d := by
  obtain ⟨dir, isDir⟩ := Option.ne_none_iff_exists'.mp isDir
  exact ⟨dir, isDir, formed.up d name i dir bound isDir⟩

/-- Going up from what lies below the root ends at the root. -/
theorem climbs {i : ι} (below : Relation.ReflTransGen t.Parent root i) (isDir : t.dirOf i ≠ none) :
    Relation.ReflTransGen t.Above i root := by
  induction below with
  | refl => exact .refl
  | @tail d i _ last ih =>
      obtain ⟨name, bound⟩ := last
      have known : t.dirOf d ≠ none := fun noDir => by
        rw [child_eq_none noDir] at bound
        cases bound
      exact .head (formed.above_of_child bound isDir) (ih known)

end WellFormed

end WellFormed

/-! ## Steps -/

/-- Some nodes without links are gone. -/
def Loses (t t' : Naming ι N) : Prop := ∀ i, t' i = t i ∨ t' i = none ∧ t i ≠ none ∧ t.links i = 0

section Steps

variable [DecidableEq ι] [DecidableEq N]

/-- The forest with a new node. -/
def made (t : Naming ι N) (d n : ι) (name : N) (count : Nat) (dir : Directory ι N)
    (new : Option (Directory ι N)) : Naming ι N :=
  Function.update (Function.update t n (some ⟨1, new⟩)) d
    (some ⟨count + Directory.weight new, some (dir.rebind name (some n))⟩)

/-- The forest in which a node has lost its name. -/
def removed (t : Naming ι N) (d n : ι) (name : N) (count count' : Nat) (dir : Directory ι N)
    (old : Option (Directory ι N)) : Naming ι N :=
  Function.update (Function.update t d
    (some ⟨count - Directory.weight old, some (dir.rebind name none)⟩)) n (some ⟨count' - 1, old⟩)

/-- A step of a forest. -/
inductive Step (t : Naming ι N) : Naming ι N → Prop where
  | lose {t' : Naming ι N} (loses : t.Loses t') : Step t t'
  | make {d n : ι} {name : N} {count : Nat} {dir : Directory ι N}
      {new : Option (Directory ι N)} (found : t d = some ⟨count, some dir⟩)
      (absent : dir.child name = none) (free : t n = none)
      (bare : ∀ dir' ∈ new, dir' = ⟨d, fun _ => none⟩) : Step t (t.made d n name count dir new)
  | remove {d n : ι} {name : N} {count count' : Nat} {dir : Directory ι N}
      {old : Option (Directory ι N)} (found : t d = some ⟨count, some dir⟩)
      (bound : dir.child name = some n) (target : t n = some ⟨count', old⟩)
      (empty : ∀ dir' ∈ old, ∀ name, dir'.child name = none) :
      Step t (t.removed d n name count count' dir old)

end Steps

/-! ## Nodes that are gone -/

section Losing

variable {root : ι} {extra : ι → Nat} {t t' : Naming ι N}

theorem dirOf_congr {i : ι} (same : t' i = t i) : t'.dirOf i = t.dirOf i := by
  unfold dirOf
  rw [same]

theorem links_congr {i : ι} (same : t' i = t i) : t'.links i = t.links i := by
  unfold links
  rw [same]

theorem child_congr {d : ι} (same : t' d = t d) (name : N) : t'.child d name = t.child d name := by
  unfold child
  rw [dirOf_congr same]

/-- Who has a link stays. -/
theorem Loses.kept (loses : t.Loses t') {i : ι} (linked : t.links i ≠ 0) : t' i = t i := by
  rcases loses i with same | ⟨-, -, unlinked⟩
  · exact same
  · exact absurd unlinked linked

/-- Who is there is as before. -/
theorem Loses.same (loses : t.Loses t') {i : ι} (present : t' i ≠ none) : t' i = t i := by
  rcases loses i with same | ⟨gone, -⟩
  · exact same
  · exact absurd gone present

theorem Loses.same_of_dir (loses : t.Loses t') {i : ι} (isDir : t'.dirOf i ≠ none) : t' i = t i :=
  loses.same fun gone => isDir (dirOf_eq_none gone)

theorem Loses.child (loses : t.Loses t') {d i : ι} {name : N} (bound : t'.child d name = some i) :
    t.child d name = some i := by
  have isDir : t'.dirOf d ≠ none := fun noDir => by
    rw [child_eq_none noDir] at bound
    cases bound
  rw [← child_congr (loses.same_of_dir isDir)]
  exact bound

namespace WellFormed

variable (formed : t.WellFormed root extra) (loses : t.Loses t')

include formed loses

theorem kids_lose {d : ι} (same : t' d = t d) : t'.kids d = t.kids d := by
  ext i
  constructor
  · rintro ⟨⟨name, bound⟩, isDir⟩
    exact ⟨⟨name, loses.child bound⟩, dirOf_congr (loses.same_of_dir isDir) ▸ isDir⟩
  · rintro ⟨⟨name, bound⟩, isDir⟩
    refine ⟨⟨name, (child_congr same name).trans bound⟩, ?_⟩
    rw [dirOf_congr (loses.kept (formed.linked bound))]
    exact isDir

theorem names_lose {i : ι} (isDir : t.dirOf i ≠ none) : t'.names i = t.names i := by
  ext place
  constructor
  · exact loses.child
  · intro bound
    have kept := loses.kept (formed.linked_of_kid ⟨⟨place.2, bound⟩, isDir⟩)
    exact (child_congr kept place.2).trans bound

/-- A forest stays one when nodes without links are gone. -/
theorem lose : t'.WellFormed root extra where
  finite := by
    apply formed.finite.subset
    intro i present
    change t i ≠ none
    rw [← loses.same present]
    exact present
  top := by
    rw [dirOf_congr (loses.kept (formed.linked_of_extra formed.anchored))]
    exact formed.top
  unnamed d name bound := formed.unnamed d name (loses.child bound)
  present d name i bound := by
    have before := loses.child bound
    rw [loses.kept (formed.linked before)]
    exact formed.present d name i before
  once i := (formed.once i).anti fun _ => loses.child
  up d name i dir bound isDir := by
    have before := loses.child bound
    rw [dirOf_congr (loses.kept (formed.linked before))] at isDir
    exact formed.up d name i dir before isDir
  files d name i bound noDir := by
    have before := loses.child bound
    have kept := loses.kept (formed.linked before)
    rw [dirOf_congr kept] at noDir
    rw [links_congr kept]
    exact formed.files d name i before noDir
  counted i isDir := by
    have same := loses.same_of_dir isDir
    rw [dirOf_congr same] at isDir
    rw [links_congr same, formed.names_lose loses isDir, formed.kids_lose loses same]
    exact formed.counted i isDir
  standing i more := by
    rw [dirOf_congr (loses.kept (formed.linked_of_extra more))]
    exact formed.standing i more
  anchored := formed.anchored
  grounded := by
    apply Subrelation.wf _ formed.grounded
    rintro d i ⟨name, bound⟩
    exact ⟨name, loses.child bound⟩

end WellFormed

end Losing

/-! ## Nodes that get a name, and nodes that lose it -/

section Binding

variable [DecidableEq ι] [DecidableEq N] {root : ι} {extra : ι → Nat} {t t' : Naming ι N}

omit [DecidableEq N] in
theorem dirOf_update (t : Naming ι N) (i : ι) (item : Item ι N) :
    dirOf (Function.update t i (some item)) = Function.update t.dirOf i item.directory := by
  funext j
  unfold dirOf
  by_cases same : j = i
  · rw [same, Function.update_self, Function.update_self]
    rfl
  · rw [Function.update_of_ne same, Function.update_of_ne same]

omit [DecidableEq N] in
theorem links_update (t : Naming ι N) (i : ι) (item : Item ι N) :
    links (Function.update t i (some item)) = Function.update t.links i item.links := by
  funext j
  unfold links
  by_cases same : j = i
  · rw [same, Function.update_self, Function.update_self]
    rfl
  · rw [Function.update_of_ne same, Function.update_of_ne same]

omit [DecidableEq ι] in
theorem child_rebind (dir : Directory ι N) (name nm : N) (target : Option ι) :
    (dir.rebind name target).child nm = if nm = name then target else dir.child nm :=
  Function.update_apply ..

/-- A directory gets another node behind a name.  The other nodes bind what they did. -/
theorem child_of_dirOf {d : ι} {name : N} {target : Option ι} {dir : Directory ι N}
    (isDir : t.dirOf d = some dir) (after : t'.dirOf d = some (dir.rebind name target))
    (others : ∀ x, x ≠ d → ∀ nm, t'.child x nm = t.child x nm) (x : ι) (nm : N) :
    t'.child x nm = if x = d ∧ nm = name then target else t.child x nm := by
  by_cases same : x = d
  · rw [same, child_eq after, child_eq isDir, child_rebind]
    simp
  · rw [others x same, if_neg fun both => same both.1]

section Make

variable {d n : ι} {name : N} {count : Nat} {dir : Directory ι N} {new : Option (Directory ι N)}
  (found : t d = some ⟨count, some dir⟩) (absent : dir.child name = none) (free : t n = none)
  (bare : ∀ dir' ∈ new, dir' = ⟨d, fun _ => none⟩)

section Fields

theorem dirOf_made : (t.made d n name count dir new).dirOf =
    Function.update (Function.update t.dirOf n new) d (some (dir.rebind name (some n))) := by
  unfold made
  rw [dirOf_update, dirOf_update]

theorem links_made : (t.made d n name count dir new).links =
    Function.update (Function.update t.links n 1) d (count + Directory.weight new) := by
  unfold made
  rw [links_update, links_update]

end Fields

include found free

omit [DecidableEq ι] [DecidableEq N] in
theorem made_apart : d ≠ n := by
  rintro rfl
  rw [found] at free
  cases free

include bare

theorem child_made (x : ι) (nm : N) : (t.made d n name count dir new).child x nm =
    if x = d ∧ nm = name then some n else t.child x nm := by
  have apart := made_apart found free
  have dirs : (t.made d n name count dir new).dirOf = Function.update
      (Function.update t.dirOf n new) d (some (dir.rebind name (some n))) := dirOf_made
  apply child_of_dirOf (dirOf_eq_some found)
  · rw [dirs, Function.update_self]
  · intro x other nm
    unfold child
    rw [dirs, Function.update_of_ne other]
    by_cases same : x = n
    · rw [same, Function.update_self, dirOf_eq_none free]
      cases isNew : new with
      | none => rfl
      | some dir' =>
          rw [bare dir' isNew]
          rfl
    · rw [Function.update_of_ne same]

omit free bare in
/-- The other nodes are directories if they were. -/
theorem isDir_made {i : ι} (other : i ≠ n) :
    (t.made d n name count dir new).dirOf i ≠ none ↔ t.dirOf i ≠ none := by
  rw [dirOf_made]
  by_cases same : i = d
  · rw [same, Function.update_self, dirOf_eq_some found]
    simp
  · rw [Function.update_of_ne same, Function.update_of_ne other]

include absent

theorem names_made {i : ι} (other : i ≠ n) :
    (t.made d n name count dir new).names i = t.names i := by
  ext place
  unfold names
  rw [Set.mem_ofPred_eq, Set.mem_ofPred_eq, child_made found free bare]
  split
  · next both =>
    rw [both.1, both.2, child_eq (dirOf_eq_some found), absent]
    simpa using Ne.symm other
  · rfl

variable (formed : t.WellFormed root extra)

include formed

omit [DecidableEq ι] [DecidableEq N] found absent bare in
theorem child_ne_new (x : ι) (nm : N) : t.child x nm ≠ some n :=
  fun bound => formed.present x nm n bound free

omit absent in
theorem names_new : (t.made d n name count dir new).names n = {(d, name)} := by
  ext place
  unfold names
  rw [Set.mem_ofPred_eq, child_made found free bare, Set.mem_singleton_iff, Prod.ext_iff]
  split
  · next both => simpa using both
  · next differ =>
    constructor
    · intro bound
      exact absurd bound (child_ne_new free formed _ _)
    · intro both
      exact absurd both differ

omit absent in
theorem kids_made_other {x : ι} (other : x ≠ d) :
    (t.made d n name count dir new).kids x = t.kids x := by
  ext i
  unfold kids
  simp only [Set.mem_ofPred_eq, child_made found free bare, other, false_and, if_false]
  constructor
  · rintro ⟨⟨nm, bound⟩, isDir⟩
    have differ : i ≠ n := fun same => child_ne_new free formed x nm (same ▸ bound)
    exact ⟨⟨nm, bound⟩, (isDir_made found differ).mp isDir⟩
  · rintro ⟨⟨nm, bound⟩, isDir⟩
    have differ : i ≠ n := fun same => child_ne_new free formed x nm (same ▸ bound)
    exact ⟨⟨nm, bound⟩, (isDir_made found differ).mpr isDir⟩

/-- The directory gets one directory more, if the new node is one. -/
theorem kids_made_self :
    ((t.made d n name count dir new).kids d).ncard = (t.kids d).ncard + Directory.weight new := by
  have apart := made_apart found free
  have fresh : n ∉ t.kids d := fun kid => kid.1.elim fun nm => child_ne_new free formed d nm
  have mem : ∀ i, i ∈ (t.made d n name count dir new).kids d ↔
      i ∈ t.kids d ∨ i = n ∧ new ≠ none := by
    intro i
    unfold kids
    simp only [Set.mem_ofPred_eq, child_made found free bare, true_and]
    by_cases same : i = n
    · subst same
      rw [dirOf_made, Function.update_of_ne apart.symm, Function.update_self]
      constructor
      · rintro ⟨-, isDir⟩
        exact Or.inr ⟨rfl, isDir⟩
      · rintro (⟨⟨nm, bound⟩, -⟩ | ⟨-, isDir⟩)
        · exact absurd bound (child_ne_new free formed d nm)
        · exact ⟨⟨name, if_pos rfl⟩, isDir⟩
    · rw [isDir_made found same]
      constructor
      · rintro ⟨⟨nm, bound⟩, isDir⟩
        split at bound
        · exact absurd (Option.some.inj bound).symm same
        · exact Or.inl ⟨⟨nm, bound⟩, isDir⟩
      · rintro (⟨⟨nm, bound⟩, isDir⟩ | ⟨isNew, -⟩)
        · refine ⟨⟨nm, ?_⟩, isDir⟩
          rw [if_neg]
          · exact bound
          · rintro rfl
            rw [child_eq (dirOf_eq_some found), absent] at bound
            cases bound
        · exact absurd isNew same
  cases isNew : new with
  | none =>
      have same : (t.made d n name count dir none).kids d = t.kids d := by
        ext i
        rw [← isNew, mem, isNew]
        simp
      rw [same]
      rfl
  | some dir' =>
      have more : (t.made d n name count dir (some dir')).kids d = insert n (t.kids d) := by
        ext i
        rw [← isNew, mem, isNew, Set.mem_insert_iff]
        simp [or_comm]
      rw [more, Set.ncard_insert_of_notMem fresh (formed.kids_finite d)]
      rfl

omit absent in
/-- What a new node adds to the names. -/
theorem child_of_made {x i : ι} {nm : N}
    (bound : (t.made d n name count dir new).child x nm = some i) :
    x = d ∧ i = n ∨ i ≠ n ∧ t.child x nm = some i := by
  rw [child_made found free bare] at bound
  split at bound
  · next both => exact Or.inl ⟨both.1, (Option.some.inj bound).symm⟩
  · refine Or.inr ⟨?_, bound⟩
    rintro rfl
    exact child_ne_new free formed x nm bound

omit absent in
/-- Who was above whom is so after a node is made, and the new node is below its directory. -/
theorem grounded_made : WellFounded (t.made d n name count dir new).Parent := by
  have others : ∀ x, x ≠ n → Acc (t.made d n name count dir new).Parent x := by
    intro x
    induction x using formed.grounded.induction with
    | _ x ih =>
        intro other
        constructor
        rintro y ⟨nm, bound⟩
        rcases child_of_made found free bare formed bound with ⟨-, isNew⟩ | ⟨-, before⟩
        · exact absurd isNew other
        · apply ih y ⟨nm, before⟩
          rintro rfl
          rw [child_eq_none (dirOf_eq_none free)] at before
          cases before
  constructor
  intro x
  by_cases same : x = n
  · subst same
    constructor
    rintro y ⟨nm, bound⟩
    rcases child_of_made found free bare formed bound with ⟨rfl, -⟩ | ⟨differ, -⟩
    · exact others y (made_apart found free)
    · exact absurd rfl differ
  · exact others x same

/-- A forest stays one when a node is made. -/
theorem WellFormed.make : (t.made d n name count dir new).WellFormed root extra := by
  have apart := made_apart found free
  have isDir := dirOf_eq_some found
  have noDir := dirOf_eq_none free
  have dirs : ∀ {i : ι}, i ≠ d → i ≠ n →
      (t.made d n name count dir new).dirOf i = t.dirOf i := by
    intro i other differ
    rw [dirOf_made, Function.update_of_ne other, Function.update_of_ne differ]
  have self : (t.made d n name count dir new).dirOf d = some (dir.rebind name (some n)) := by
    rw [dirOf_made, Function.update_self]
  have fresh : (t.made d n name count dir new).dirOf n = new := by
    rw [dirOf_made, Function.update_of_ne apart.symm, Function.update_self]
  have freshLinks : (t.made d n name count dir new).links n = 1 := by
    rw [links_made, Function.update_of_ne apart.symm, Function.update_self]
  have links : ∀ {i : ι}, i ≠ d → i ≠ n →
      (t.made d n name count dir new).links i = t.links i := by
    intro i other differ
    rw [links_made, Function.update_of_ne other, Function.update_of_ne differ]
  have there : ∀ {i : ι}, i ≠ n → (t.made d n name count dir new i ≠ none ↔ t i ≠ none) := by
    intro i differ
    unfold made
    by_cases same : i = d
    · rw [same, Function.update_self, found]
      simp
    · rw [Function.update_of_ne same, Function.update_of_ne differ]
  have notRoot : root ≠ n := by
    rintro rfl
    obtain ⟨dir', isRoot, -⟩ := formed.top
    rw [noDir] at isRoot
    cases isRoot
  have noExtra : extra n = 0 := by
    by_contra more
    exact formed.standing n more noDir
  constructor
  case finite =>
    apply (formed.finite.insert n).subset
    intro i present
    by_cases same : i = n
    · exact Or.inl same
    · exact Or.inr ((there same).mp present)
  case top =>
    obtain ⟨dir', isRoot, above⟩ := formed.top
    by_cases same : root = d
    · subst same
      rw [isDir] at isRoot
      cases isRoot
      exact ⟨_, self, above⟩
    · rw [dirs same notRoot]
      exact ⟨dir', isRoot, above⟩
  case unnamed =>
    intro x nm bound
    rcases child_of_made found free bare formed bound with ⟨-, isNew⟩ | ⟨-, before⟩
    · exact notRoot isNew
    · exact formed.unnamed x nm before
  case present =>
    intro x nm i bound
    rcases child_of_made found free bare formed bound with ⟨-, rfl⟩ | ⟨differ, before⟩
    · unfold made
      rw [Function.update_of_ne apart.symm, Function.update_self]
      exact Option.some_ne_none _
    · exact (there differ).mpr (formed.present x nm i before)
  case once =>
    intro i
    by_cases same : i = n
    · rw [same, names_new found free bare formed]
      exact Set.subsingleton_singleton
    · rw [names_made found absent free bare same]
      exact formed.once i
  case up =>
    intro x nm i dir' bound isDir'
    rcases child_of_made found free bare formed bound with ⟨rfl, rfl⟩ | ⟨differ, before⟩
    · rw [fresh] at isDir'
      rw [bare dir' isDir']
    · by_cases same : i = d
      · subst same
        rw [self] at isDir'
        cases isDir'
        exact formed.up x nm i dir before isDir
      · rw [dirs same differ] at isDir'
        exact formed.up x nm i dir' before isDir'
  case files =>
    intro x nm i bound noDir'
    rcases child_of_made found free bare formed bound with ⟨-, rfl⟩ | ⟨differ, before⟩
    · exact freshLinks
    · have other : i ≠ d := by
        rintro rfl
        rw [self] at noDir'
        cases noDir'
      rw [dirs other differ] at noDir'
      rw [links other differ]
      exact formed.files x nm i before noDir'
  case counted =>
    intro i isDir'
    by_cases same : i = n
    · subst same
      have alone : t.kids i = ∅ := by
        apply Set.eq_empty_of_forall_notMem
        rintro j ⟨⟨nm, bound⟩, -⟩
        rw [child_eq_none noDir] at bound
        cases bound
      rw [freshLinks, names_new found free bare formed,
        kids_made_other found free bare formed apart.symm, alone, noExtra, Set.ncard_singleton,
        Set.ncard_empty]
    · have count' := formed.counted i ((isDir_made found same).mp isDir')
      rw [names_made found absent free bare same]
      by_cases other : i = d
      · subst other
        have before : t.links i = count := by
          unfold Naming.links
          rw [found]
          rfl
        rw [links_made, Function.update_self, kids_made_self found absent free bare formed,
          ← before, count']
        omega
      · rw [links other same, kids_made_other found free bare formed other]
        exact count'
  case standing =>
    intro i more
    apply (isDir_made found _).mpr (formed.standing i more)
    rintro rfl
    exact more noExtra
  case anchored => exact formed.anchored
  case grounded => exact grounded_made found free bare formed

end Make

section Remove

variable {d n : ι} {name : N} {count count' : Nat} {dir : Directory ι N}
  {old : Option (Directory ι N)}

theorem dirOf_removed : (t.removed d n name count count' dir old).dirOf =
    Function.update (Function.update t.dirOf d (some (dir.rebind name none))) n old := by
  unfold removed
  rw [dirOf_update, dirOf_update]

theorem links_removed : (t.removed d n name count count' dir old).links =
    Function.update (Function.update t.links d (count - Directory.weight old)) n (count' - 1) := by
  unfold removed
  rw [links_update, links_update]

variable (found : t d = some ⟨count, some dir⟩) (bound : dir.child name = some n)
  (target : t n = some ⟨count', old⟩) (empty : ∀ dir' ∈ old, ∀ name, dir'.child name = none)

include found bound target empty

omit [DecidableEq ι] [DecidableEq N] in
/-- Nobody who binds something is removed. -/
theorem removed_apart : d ≠ n := by
  rintro rfl
  rw [found] at target
  cases target
  rw [empty dir rfl name] at bound
  cases bound

omit found bound empty in
theorem dirOf_removed_of_ne {i : ι} (other : i ≠ d) :
    (t.removed d n name count count' dir old).dirOf i = t.dirOf i := by
  rw [dirOf_removed]
  by_cases same : i = n
  · rw [same, Function.update_self, dirOf_eq_some target]
  · rw [Function.update_of_ne same, Function.update_of_ne other]

theorem dirOf_removed_self :
    (t.removed d n name count count' dir old).dirOf d = some (dir.rebind name none) := by
  rw [dirOf_removed, Function.update_of_ne (removed_apart found bound target empty),
    Function.update_self]

theorem isDir_removed (i : ι) :
    (t.removed d n name count count' dir old).dirOf i ≠ none ↔ t.dirOf i ≠ none := by
  by_cases same : i = d
  · rw [same, dirOf_removed_self found bound target empty, dirOf_eq_some found]
    simp
  · rw [dirOf_removed_of_ne target same]

theorem child_removed (x : ι) (nm : N) :
    (t.removed d n name count count' dir old).child x nm =
      if x = d ∧ nm = name then none else t.child x nm := by
  apply child_of_dirOf (dirOf_eq_some found) (dirOf_removed_self found bound target empty)
  intro x other nm
  unfold child
  rw [dirOf_removed_of_ne target other]

variable (formed : t.WellFormed root extra)

include formed

/-- The other names are as before, and there is none for the node. -/
theorem child_of_removed {x i : ι} {nm : N}
    (still : (t.removed d n name count count' dir old).child x nm = some i) :
    i ≠ n ∧ t.child x nm = some i := by
  rw [child_removed found bound target empty] at still
  split at still
  · cases still
  · next differ =>
    refine ⟨?_, still⟩
    rintro rfl
    have here : t.child d name = some i := (child_eq (dirOf_eq_some found) name).trans bound
    have same : (x, nm) = (d, name) := formed.once i still here
    exact differ (Prod.ext_iff.mp same)

omit formed in
theorem names_removed {i : ι} (other : i ≠ n) :
    (t.removed d n name count count' dir old).names i = t.names i := by
  ext place
  unfold names
  rw [Set.mem_ofPred_eq, Set.mem_ofPred_eq, child_removed found bound target empty]
  split
  · next both =>
    rw [both.1, both.2, child_eq (dirOf_eq_some found), bound]
    simpa using Ne.symm other
  · rfl

theorem names_gone : (t.removed d n name count count' dir old).names n = ∅ := by
  apply Set.eq_empty_of_forall_notMem
  intro place still
  exact (child_of_removed found bound target empty formed still).1 rfl

omit formed in
theorem kids_removed_other {x : ι} (other : x ≠ d) :
    (t.removed d n name count count' dir old).kids x = t.kids x := by
  ext i
  unfold kids
  simp only [Set.mem_ofPred_eq, child_removed found bound target empty, other, false_and, if_false,
    isDir_removed found bound target empty]

/-- The directory has one directory less, if the node was one. -/
theorem kids_removed_self : (t.kids d).ncard =
    ((t.removed d n name count count' dir old).kids d).ncard + Directory.weight old := by
  have isNode : t.child d name = some n := (child_eq (dirOf_eq_some found) name).trans bound
  have mem : ∀ i, i ∈ (t.removed d n name count count' dir old).kids d ↔ i ∈ t.kids d ∧ i ≠ n := by
    intro i
    constructor
    · rintro ⟨⟨nm, still⟩, isDir⟩
      obtain ⟨differ, before⟩ := child_of_removed found bound target empty formed still
      exact ⟨⟨⟨nm, before⟩, (isDir_removed found bound target empty i).mp isDir⟩, differ⟩
    · rintro ⟨⟨⟨nm, before⟩, isDir⟩, differ⟩
      refine ⟨⟨nm, ?_⟩, (isDir_removed found bound target empty i).mpr isDir⟩
      rw [child_removed found bound target empty, if_neg]
      · exact before
      · rintro ⟨-, rfl⟩
        rw [isNode] at before
        exact differ (Option.some.inj before).symm
  cases wasDir : old with
  | none =>
      have same : (t.removed d n name count count' dir none).kids d = t.kids d := by
        ext i
        rw [← wasDir, mem]
        constructor
        · exact And.left
        · intro kid
          refine ⟨kid, ?_⟩
          rintro rfl
          exact kid.2 ((dirOf_eq_some target).trans wasDir)
      rw [same]
      rfl
  | some dir' =>
      have kid : n ∈ t.kids d := by
        refine ⟨⟨name, isNode⟩, ?_⟩
        rw [dirOf_eq_some target, wasDir]
        exact Option.some_ne_none _
      have more : insert n ((t.removed d n name count count' dir (some dir')).kids d) = t.kids d := by
        ext i
        rw [← wasDir, Set.mem_insert_iff, mem]
        constructor
        · rintro (rfl | ⟨still, -⟩)
          · exact kid
          · exact still
        · intro isKid
          by_cases same : i = n
          · exact Or.inl same
          · exact Or.inr ⟨isKid, same⟩
      have gone : n ∉ (t.removed d n name count count' dir (some dir')).kids d := by
        rw [← wasDir, mem]
        exact fun both => both.2 rfl
      have finite : ((t.removed d n name count count' dir (some dir')).kids d).Finite := by
        apply (formed.kids_finite d).subset
        rw [← more]
        exact Set.subset_insert _ _
      rw [← more, Set.ncard_insert_of_notMem gone finite]
      rfl

/-- A forest stays one when a node loses its name. -/
theorem WellFormed.remove : (t.removed d n name count count' dir old).WellFormed root extra := by
  have apart := removed_apart found bound target empty
  have isDir := dirOf_eq_some found
  have isNode : t.child d name = some n := (child_eq isDir name).trans bound
  have self := dirOf_removed_self found bound target empty
  have links : ∀ {i : ι}, i ≠ d → i ≠ n →
      (t.removed d n name count count' dir old).links i = t.links i := by
    intro i other differ
    rw [links_removed, Function.update_of_ne differ, Function.update_of_ne other]
  have there : ∀ i, t.removed d n name count count' dir old i ≠ none ↔ t i ≠ none := by
    intro i
    unfold removed
    by_cases same : i = n
    · rw [same, Function.update_self, target]
      simp
    · rw [Function.update_of_ne same]
      by_cases other : i = d
      · rw [other, Function.update_self, found]
        simp
      · rw [Function.update_of_ne other]
  constructor
  case finite =>
    apply formed.finite.subset
    intro i present
    exact (there i).mp present
  case top =>
    obtain ⟨dir', isRoot, above⟩ := formed.top
    by_cases same : root = d
    · subst same
      rw [isDir] at isRoot
      cases isRoot
      exact ⟨_, self, above⟩
    · rw [dirOf_removed_of_ne target same]
      exact ⟨dir', isRoot, above⟩
  case unnamed =>
    intro x nm still
    exact formed.unnamed x nm (child_of_removed found bound target empty formed still).2
  case present =>
    intro x nm i still
    have before := (child_of_removed found bound target empty formed still).2
    exact (there i).mpr (formed.present x nm i before)
  case once =>
    intro i
    apply (formed.once i).anti
    intro place still
    exact (child_of_removed found bound target empty formed still).2
  case up =>
    intro x nm i dir' still isDir'
    have before := (child_of_removed found bound target empty formed still).2
    by_cases same : i = d
    · subst same
      rw [self] at isDir'
      cases isDir'
      exact formed.up x nm i dir before isDir
    · rw [dirOf_removed_of_ne target same] at isDir'
      exact formed.up x nm i dir' before isDir'
  case files =>
    intro x nm i still noDir
    obtain ⟨differ, before⟩ := child_of_removed found bound target empty formed still
    have other : i ≠ d := by
      rintro rfl
      rw [self] at noDir
      cases noDir
    rw [dirOf_removed_of_ne target other] at noDir
    rw [links other differ]
    exact formed.files x nm i before noDir
  case counted =>
    intro i isDir'
    have count₀ := formed.counted i ((isDir_removed found bound target empty i).mp isDir')
    by_cases same : i = n
    · subst same
      have before : t.links i = count' := by
        unfold Naming.links
        rw [target]
        rfl
      rw [before, formed.names_eq isNode, Set.ncard_singleton] at count₀
      rw [links_removed, Function.update_self, names_gone found bound target empty formed,
        kids_removed_other found bound target empty apart.symm, Set.ncard_empty]
      omega
    · rw [names_removed found bound target empty same]
      by_cases other : i = d
      · subst other
        have before : t.links i = count := by
          unfold Naming.links
          rw [found]
          rfl
        rw [before, kids_removed_self found bound target empty formed] at count₀
        rw [links_removed, Function.update_of_ne apart, Function.update_self]
        omega
      · rw [links other same, kids_removed_other found bound target empty other]
        exact count₀
  case standing =>
    intro i more
    exact (isDir_removed found bound target empty i).mpr (formed.standing i more)
  case anchored => exact formed.anchored
  case grounded =>
    apply Subrelation.wf _ formed.grounded
    rintro x i ⟨nm, still⟩
    exact ⟨nm, (child_of_removed found bound target empty formed still).2⟩

end Remove

/-! ## Runs -/

/-- Every step keeps a forest. -/
theorem WellFormed.step (formed : t.WellFormed root extra) (step : t.Step t') :
    t'.WellFormed root extra := by
  cases step with
  | lose loses => exact formed.lose loses
  | make found absent free bare => exact WellFormed.make found absent free bare formed
  | remove found bound target empty => exact WellFormed.remove found bound target empty formed

/-- Every run keeps a forest. -/
theorem WellFormed.run (formed : t.WellFormed root extra)
    (run : Relation.ReflTransGen Step t t') : t'.WellFormed root extra := by
  induction run with
  | refl => exact formed
  | tail _ last ih => exact ih.step last

end Binding

end Naming

end Notux.Store
