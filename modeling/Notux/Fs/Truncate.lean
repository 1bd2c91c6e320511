import Notux.Fs.InodeTable

/-!
# Freeing

`itrunc` takes the tree of an inode apart: every block of it is freed, the blocks
below a block of block numbers before that block itself.  While it runs the inode
counts as detached, and each of its blocks that has not been freed yet keeps its
tag.  `iput` does so when the last reference to an inode without links goes.
-/

namespace Notux.Fs

open Notux.Store Notux.Proc

/-! ## A tree that is being taken apart -/

/-- Take the tree of an inode out of the invariant. -/
def Ghost.detach (g : Ghost) (n : Nat) : Ghost := { g with detached := some n }

/-- Change the inode of a detached tree. -/
def Ghost.reform (g : Ghost) (n : Nat) (din : Dinode) : Ghost :=
  { g with view := Function.update g.view n din }

section Detached

variable {base : Set Nat} {world : FsWorld} {g : Ghost} {n : Nat} {ip : Slot}

theorem Ghost.Idle.detach_owns (idle : g.Idle) {i : Nat} :
    (g.detach n).Owns i ↔ i ≠ n ∧ g.Owns i := by
  constructor
  · rintro ⟨inRange, allocated, attached⟩
    exact ⟨fun same => attached (by rw [same]; rfl), inRange, allocated, idle.attached i⟩
  · rintro ⟨differ, inRange, allocated, -⟩
    exact ⟨inRange, allocated, fun detached => differ (Option.some.inj detached).symm⟩

theorem Sound.detach (sound : Sound base world g) (idle : g.Idle) (unpinned : n ∉ g.pinned) :
    Sound base world (g.detach n) where
  laid := sound.laid
  sameSb := sound.sameSb
  mounted := sound.mounted
  cache := ⟨sound.cache.unique, sound.cache.inRange, sound.cache.cached, sound.cache.holds⟩
  store := ⟨fun i inRange _ => sound.store.lags i inRange (idle.attached i),
    fun i inRange _ clean => sound.store.clean i inRange (idle.attached i) clean⟩
  blocks := ⟨sound.blocks.marks, sound.blocks.metadata, sound.blocks.inside,
    fun i p owns => sound.blocks.points i p (idle.detach_owns.mp owns).2,
    fun b i p tag attached => by
      obtain ⟨owns, rest⟩ := sound.blocks.owned b i p tag (idle.attached i)
      exact ⟨idle.detach_owns.mpr ⟨fun same => attached (by rw [same]; rfl), owns⟩, rest⟩,
    sound.blocks.credit⟩
  files i owns := by
    have file := sound.files i (idle.detach_owns.mp owns).2
    exact ⟨file.small, file.full, file.entries⟩
  pinned i member := idle.detach_owns.mpr
    ⟨fun same => unpinned (same ▸ member), sound.pinned i member⟩
  base := sound.base

theorem reform_owns (detached : g.detached = some n) {din : Dinode} {i : Nat} :
    (g.reform n din).Owns i ↔ g.Owns i := by
  constructor
  · rintro ⟨inRange, allocated, attached⟩
    have differ : i ≠ n := fun same => attached (by rw [same]; exact detached)
    exact ⟨inRange, by simpa [Ghost.reform, differ] using allocated, attached⟩
  · rintro ⟨inRange, allocated, attached⟩
    have differ : i ≠ n := fun same => attached (by rw [same]; exact detached)
    exact ⟨inRange, by simpa [Ghost.reform, differ] using allocated, attached⟩

/-- The addresses of a detached tree may change in memory. -/
theorem Sound.reform (sound : Sound base world g) (caches : Caches world ip n)
    (detached : g.detached = some n) {change : Dinode → Dinode}
    (type : (change (g.view n)).type = (g.view n).type) :
    Sound base { world with mem := world.mem.setInode ip (·.mapDin change) }
      (g.reform n (change (g.view n))) := by
  have view : ∀ i, i ≠ n → (g.reform n (change (g.view n))).view i = g.view i :=
    fun i differ => Function.update_of_ne differ _ _
  have apart : ∀ i, (g.reform n (change (g.view n))).detached ≠ some i → i ≠ n :=
    fun i attached same => attached (by rw [same]; exact detached)
  have allocated := (sound.cache.cached ip caches.inUse caches.valid).2
  refine ⟨sound.laid, sound.sameSb, sound.mounted, ?_, ⟨?_, ?_⟩, ⟨sound.blocks.marks,
    sound.blocks.metadata, sound.blocks.inside, ?_, ?_, sound.blocks.credit⟩, ?_, ?_, sound.base⟩
  · refine sound.cache.setDin caches.inUse caches.valid ?_ rfl rfl ?_
    · rw [caches.inum] at allocated ⊢
      rwa [type]
    · rw [caches.inum]
      rfl
  · intro i inRange attached
    rw [view i (apart i attached)]
    exact sound.store.lags i inRange attached
  · intro i inRange attached clean
    rw [view i (apart i attached)]
    exact sound.store.clean i inRange attached clean
  · intro i p owns valid present
    rw [view i (apart i owns.attached)] at present ⊢
    exact sound.blocks.points i p ((reform_owns detached).mp owns) valid present
  · intro b i p tag attached
    rw [view i (apart i attached)]
    obtain ⟨owns, rest⟩ := sound.blocks.owned b i p tag attached
    exact ⟨(reform_owns detached).mpr owns, rest⟩
  · intro i owns
    have same := view i (apart i owns.attached)
    exact (sound.files i ((reform_owns detached).mp owns)).congr rfl rfl rfl (by rw [same])
      fun bn present => by rwa [same]
  · exact fun i member => (reform_owns detached).mpr (sound.pinned i member)

end Detached

/-- While the tree of inode `n` is taken apart: the blocks at the positions that
are `left` are still marked. -/
structure Freeing (base : Set Nat) (n : Nat) (world : FsWorld) (g : Ghost) (left : Pos → Prop)
    (din : Dinode) (after : FsWorld) (g' : Ghost) : Prop where
  sound : Sound base after g'
  detached : g'.detached = some n
  sb : g'.sb = g.sb
  held : g'.held = g.held
  pinned : g'.pinned = g.pinned
  aligned : g'.aligned = g.aligned
  dirty : g'.dirty = none
  credit : g.credit ≤ g'.credit
  taken : ∀ b, g'.tag b = g.tag b ∨ g'.tag b = .free
  view : g'.view = Function.update g.view n din
  slots : SameSlots world.mem after.mem
  same : ∀ x, g.tag x ≠ .metadata → after.disk x = world.disk x
  tags : ∀ x p, g'.tag x = .owned n p ↔ left p ∧ g.tag x = .owned n p

/-- The root above a position. -/
def rootOf : Pos → Nat
  | .root r => r
  | .child parent _ => rootOf parent

/-- Nothing stands below a missing root. -/
theorem blockAt_of_root_missing {disk : Disk} {din : Dinode} {p : Pos}
    (missing : din.addr (rootOf p) = 0) : din.blockAt disk p = 0 := by
  induction p with
  | root r => exact missing
  | child parent j ih => exact Pos.blockAt_child_of_zero (ih missing) j

section Freeing

variable {base : Set Nat} {world after : FsWorld} {g g' : Ghost} {n : Nat} {ip : Slot}
  {left left' : Pos → Prop} {din : Dinode} {P : Disk → Prop} {F : Stop → FsWorld → Prop}

/-- Freeing a tree leaves no new block that nothing refers to. -/
theorem Freeing.settled (freeing : Freeing base n world g left din after g') (b : Nat)
    (loose : g'.tag b = .loose) : g.tag b = .loose := by
  rcases freeing.taken b with same | free
  · exact same.symm.trans loose
  · rw [loose] at free
    cases free

/-- Only the positions of blocks matter. -/
theorem Freeing.congr (freeing : Freeing base n world g left din after g')
    (sound : Sound base world g) (owns : g.Owns n)
    (same : ∀ p, p.Valid fileShape → (g.view n).blockAt world.disk p ≠ 0 →
      (left p ↔ left' p)) : Freeing base n world g left' din after g' := by
  refine { freeing with tags := fun x p => (freeing.tags x p).trans ?_ }
  refine and_congr_left fun tag => ?_
  obtain ⟨-, valid, place⟩ := sound.blocks.owned x n p tag owns.attached
  refine same p valid fun missing => ?_
  have low := (sound.blocks.metadata x).mpr (by
    rw [← place, missing]
    exact Nat.lt_of_le_of_lt (Nat.zero_le _) sound.laid.bitmap)
  rw [tag] at low
  cases low

variable (safe : ∀ world g, Sound base world g → P world.disk) (sound : Sound base world g)
  (owns : g.Owns n)

include safe sound owns

/-- One block of the tree is freed. -/
theorem bfree_freeing (freeing : Freeing base n world g left din after g') {p : Pos}
    (valid : p.Valid fileShape) (isLeft : left p)
    (present : (g.view n).blockAt world.disk p ≠ 0) :
    (bfree ((g.view n).blockAt world.disk p)).wp P F
      (fun _ final => ∃ g'', Freeing base n world g (fun q => left q ∧ q ≠ p) din final g'')
      after := by
  have tag := sound.blocks.points n p owns valid present
  have owned := (freeing.tags _ _).mpr ⟨isLeft, tag⟩
  refine (bfree_spec safe freeing.sound (Or.inr ⟨n, p, owned, freeing.detached⟩)).mono ?_
  rintro _ final ⟨mem, same, freed⟩
  refine ⟨_, { freeing with
    sound := freed
    slots := by rw [mem]; exact freeing.slots
    taken := fun b => ?_
    same := fun x data => ?_
    tags := fun x q => ?_ }⟩
  · by_cases atBlock : b = (g.view n).blockAt world.disk p
    · exact Or.inr (by rw [atBlock]; exact retag_tag_self _ _ _ _)
    · rw [retag_tag_of_ne _ atBlock]
      exact freeing.taken b
  · refine (same x fun low => data ?_).trans (freeing.same x data)
    rw [freeing.sound.blocks.metadata, freeing.sb] at low
    exact (sound.blocks.metadata x).mpr low
  · by_cases atBlock : x = (g.view n).blockAt world.disk p
    · subst atBlock
      rw [retag_tag_self, tag]
      constructor
      · exact nofun
      · rintro ⟨⟨-, differ⟩, same⟩
        exact absurd (Tag.owned.inj same).2.symm differ
    · rw [retag_tag_of_ne _ atBlock, freeing.tags]
      refine ⟨fun ⟨isLeft, tagged⟩ => ⟨⟨isLeft, fun same => atBlock ?_⟩, tagged⟩,
        fun ⟨⟨isLeft, _⟩, tagged⟩ => ⟨isLeft, tagged⟩⟩
      obtain ⟨-, -, place⟩ := sound.blocks.owned x n q tagged owns.attached
      rw [← place, same]

/-- A loop body that frees the block at a position, if there is one. -/
theorem when_bfree_freeing (freeing : Freeing base n world g left din after g') {p : Pos}
    {b : Nat} (at_b : (g.view n).blockAt world.disk p = b) (valid : p.Valid fileShape)
    (isLeft : left p) :
    (when (b ≠ 0) (bfree b)).wp P F
      (fun _ final => ∃ g'', Freeing base n world g (fun q => left q ∧ q ≠ p) din final g'')
      after := by
  subst at_b
  unfold when
  split
  · next present => exact bfree_freeing safe sound owns freeing valid isLeft present
  · next missing =>
    refine ⟨g', freeing.congr sound owns fun q _ present => ⟨fun isLeft => ⟨isLeft, ?_⟩, And.left⟩⟩
    rintro rfl
    exact missing present

omit safe in
/-- The blocks of block numbers have not changed. -/
theorem Freeing.word_eq (freeing : Freeing base n world g left din after g') {parent : Pos}
    (valid : parent.Valid fileShape) (present : (g.view n).blockAt world.disk parent ≠ 0)
    (j : Nat) :
    word (after.disk ((g.view n).blockAt world.disk parent)) j =
      (g.view n).blockAt world.disk (.child parent j) := by
  have tag := sound.blocks.points n parent owns valid present
  rw [freeing.same _ (by rw [tag]; simp), blockAt_child present]

/-- The entries of a block of block numbers are freed. -/
theorem itruncIndirect_freeing (freeing : Freeing base n world g left din after g')
    {parent : Pos} (valid : parent.Valid fileShape) (above : 0 < parent.height fileShape)
    (present : (g.view n).blockAt world.disk parent ≠ 0)
    (isLeft : ∀ j, left (.child parent j)) {bp : Buf}
    (at_bp : bp.blockno = (g.view n).blockAt world.disk parent) :
    (itruncIndirect bp).wp P F
      (fun _ final => ∃ g'', Freeing base n world g
        (fun q => left q ∧ ∀ j < NINDIRECT, q ≠ .child parent j) din final g'') after := by
  unfold itruncIndirect
  refine Prog.wp_forRange (I := fun j middle => ∃ g'', Freeing base n world g
    (fun q => left q ∧ ∀ i < j, q ≠ .child parent i) din middle g'') ?_ ?_
  · exact ⟨g', freeing.congr sound owns fun q _ _ => by simp⟩
  · rintro j inside middle ⟨g'', going⟩
    simp only [Prog.wp_bind, Prog.wp_data]
    rw [at_bp, going.word_eq sound owns valid present]
    have child : (Pos.child parent j).Valid fileShape := ⟨valid, above, inside⟩
    have stillLeft : left (.child parent j) ∧ ∀ i < j, Pos.child parent j ≠ .child parent i :=
      ⟨isLeft j, fun i before same => by cases same; omega⟩
    refine (when_bfree_freeing safe sound owns going rfl child stillLeft).mono ?_
    rintro _ final ⟨last, done⟩
    refine ⟨last, done.congr sound owns fun q _ _ => ?_⟩
    constructor
    · rintro ⟨⟨isLeft, others⟩, differ⟩
      refine ⟨isLeft, fun i before => ?_⟩
      rcases Nat.lt_succ_iff_lt_or_eq.mp before with earlier | rfl
      · exact others i earlier
      · exact differ
    · rintro ⟨isLeft, others⟩
      exact ⟨⟨isLeft, fun i before => others i (by omega)⟩, others j (by omega)⟩

/-- The entries of the double-indirect block are freed, each after its own
entries. -/
theorem itruncDouble_freeing (freeing : Freeing base n world g left din after g')
    {parent : Pos} (valid : parent.Valid fileShape) (above : 1 < parent.height fileShape)
    (present : (g.view n).blockAt world.disk parent ≠ 0)
    (isLeft : ∀ j, left (.child parent j)) (isLeftBelow : ∀ j i, left (.child (.child parent j) i))
    {bp : Buf} (at_bp : bp.blockno = (g.view n).blockAt world.disk parent) :
    (itruncDouble bp).wp P F
      (fun _ final => ∃ g'', Freeing base n world g
        (fun q => left q ∧ ∀ j < NINDIRECT, q ≠ .child parent j ∧
          ∀ i < NINDIRECT, q ≠ .child (.child parent j) i) din final g'') after := by
  unfold itruncDouble
  refine Prog.wp_forRange (I := fun j middle => ∃ g'', Freeing base n world g
    (fun q => left q ∧ ∀ i < j, q ≠ .child parent i ∧
      ∀ k < NINDIRECT, q ≠ .child (.child parent i) k) din middle g'') ?_ ?_
  · exact ⟨g', freeing.congr sound owns fun q _ _ => by simp⟩
  · rintro j inside middle ⟨g'', going⟩
    have child : (Pos.child parent j).Valid fileShape := ⟨valid, by omega, inside⟩
    have childAbove : 0 < (Pos.child parent j).height fileShape := by
      simp only [Pos.height]
      omega
    simp only [Prog.wp_bind, Prog.wp_data]
    rw [at_bp, going.word_eq sound owns valid present]
    unfold when
    split
    · next childPresent =>
      simp only [Prog.wp_bind, Prog.wp_bread, Prog.wp_data]
      intro slot
      refine (itruncIndirect_freeing safe sound owns going child childAbove childPresent
        (fun i => ⟨isLeftBelow j i, fun k before => ⟨by rintro ⟨⟩, fun l _ same => ?_⟩⟩) rfl).mono ?_
      · cases same
        omega
      rintro _ later ⟨third, further⟩
      simp only [brelse, Prog.wp_pure]
      rw [at_bp, further.word_eq sound owns valid present]
      refine (bfree_freeing safe sound owns further child ⟨⟨isLeft j, fun k before => ?_⟩,
        fun _ _ => ?_⟩ childPresent).mono ?_
      · exact ⟨fun same => by cases same; omega, fun l _ same => by cases same⟩
      · rintro ⟨⟩
      rintro _ final ⟨last, done⟩
      refine ⟨last, done.congr sound owns fun q _ _ => ?_⟩
      constructor
      · rintro ⟨⟨⟨isLeft, others⟩, below⟩, differ⟩
        refine ⟨isLeft, fun i before => ?_⟩
        rcases Nat.lt_succ_iff_lt_or_eq.mp before with earlier | rfl
        · exact others i earlier
        · exact ⟨differ, below⟩
      · rintro ⟨isLeft, others⟩
        exact ⟨⟨⟨isLeft, fun i before => others i (by omega)⟩, (others j (by omega)).2⟩,
          (others j (by omega)).1⟩
    · next childMissing =>
      have absent : (g.view n).blockAt world.disk (.child parent j) = 0 :=
        not_not.mp childMissing
      refine ⟨g'', going.congr sound owns fun q _ qPresent => ?_⟩
      constructor
      · rintro ⟨isLeft, others⟩
        refine ⟨isLeft, fun i before => ?_⟩
        rcases Nat.lt_succ_iff_lt_or_eq.mp before with earlier | rfl
        · exact others i earlier
        · refine ⟨?_, fun k _ => ?_⟩
          · rintro rfl
            exact qPresent absent
          · rintro rfl
            exact qPresent (Pos.blockAt_child_of_zero absent k)
      · rintro ⟨isLeft, others⟩
        exact ⟨isLeft, fun i before => others i (by omega)⟩

omit safe sound owns in
/-- The addresses of the inode change in memory while its tree is taken apart. -/
theorem Freeing.reform (freeing : Freeing base n world g left din after g')
    (caches : Caches world ip n) {change : Dinode → Dinode}
    (type : (change din).type = din.type) :
    Freeing base n world g left (change din)
      { after with mem := after.mem.setInode ip (·.mapDin change) }
      (g'.reform n (change din)) := by
  have view : g'.view n = din := by rw [freeing.view, Function.update_self]
  have type' : (change (g'.view n)).type = (g'.view n).type := by rw [view, type]
  have formed := freeing.sound.reform (caches.same freeing.slots) freeing.detached type'
  rw [view] at formed
  exact { freeing with
    sound := formed
    view := by
      change Function.update g'.view n _ = _
      rw [freeing.view, Function.update_idem]
    slots := freeing.slots.trans (sameSlots_setDin _ _ _) }

end Freeing

/-! ## `itrunc` -/

/-- The inode with its first `r` addresses set to zero. -/
structure Clears (r : Nat) (din din' : Dinode) : Prop where
  type : din'.type = din.type
  major : din'.major = din.major
  minor : din'.minor = din.minor
  nlink : din'.nlink = din.nlink
  addr : ∀ i < NDIRECT + 2, din'.addr i = if i < r then 0 else din.addr i

theorem Clears.skip {r : Nat} {din din' : Dinode} (clears : Clears r din din')
    (missing : din'.addr r = 0) : Clears (r + 1) din din' := by
  refine { clears with addr := fun i inside => ?_ }
  by_cases same : i = r
  · rw [same, missing, if_pos (Nat.lt_succ_self r)]
  · rw [clears.addr i inside]
    exact if_congr (by omega) rfl rfl

theorem Clears.clear {r : Nat} {din din' : Dinode} (clears : Clears r din din')
    (inside : r < NDIRECT + 2) : Clears (r + 1) din (din'.setAddr r 0) := by
  refine { clears with addr := fun i small => ?_ }
  rw [addr_setAddr inside small (by decide)]
  by_cases same : i = r
  · rw [if_pos same, if_pos (by omega)]
  · rw [if_neg same, clears.addr i small]
    exact if_congr (by omega) rfl rfl

/-- The first `r` roots have been freed, with all that stands below them. -/
def Cleared (base : Set Nat) (n : Nat) (world : FsWorld) (g : Ghost) (r : Nat)
    (after : FsWorld) : Prop :=
  ∃ g' din, Freeing base n world g (fun p => r ≤ rootOf p) din after g' ∧
    Clears r (g.view n) din

theorem rootOf_lt {p : Pos} (valid : p.Valid fileShape) : rootOf p < NDIRECT + 2 := by
  induction p with
  | root r => exact valid
  | child parent j ih => exact ih valid.parent

/-- The positions of a file by their depth. -/
theorem position_cases {p : Pos} (valid : p.Valid fileShape) :
    p = .root (rootOf p) ∨
    (NDIRECT ≤ rootOf p ∧ ∃ j < NINDIRECT, p = .child (.root (rootOf p)) j) ∨
    (rootOf p = NDIRECT + 1 ∧ ∃ j < NINDIRECT, ∃ i < NINDIRECT,
      p = .child (.child (.root (rootOf p)) j) i) := by
  have small := rootOf_lt valid
  match p with
  | .root r => exact Or.inl rfl
  | .child (.root r) j =>
      obtain ⟨-, above, inside⟩ := valid
      simp only [Pos.height, fileShape, NDIRECT] at above
      simp only [rootOf, NDIRECT] at small ⊢
      exact Or.inr (Or.inl ⟨by omega, j, inside, rfl⟩)
  | .child (.child (.root r) j) i =>
      obtain ⟨⟨-, -, outer⟩, above, inner⟩ := valid
      simp only [Pos.height, fileShape, NDIRECT] at above
      simp only [rootOf, NDIRECT] at small ⊢
      exact Or.inr (Or.inr ⟨by omega, j, outer, i, inner, rfl⟩)
  | .child (.child (.child q k) j) i =>
      obtain ⟨-, above, -⟩ := valid
      have bound : ∀ q : Pos, q.height fileShape ≤ rootOf q - (NDIRECT - 1) := by
        intro q
        induction q with
        | root r => exact Nat.le_refl _
        | child parent j ih => exact Nat.le_trans (Nat.sub_le _ _) ih
      have tall := bound q
      simp only [Pos.height] at above
      simp only [rootOf, NDIRECT] at small tall
      omega

section Itrunc

variable {base : Set Nat} {world after : FsWorld} {g g' : Ghost} {n : Nat} {ip : Slot}
  {left : Pos → Prop} {din : Dinode} {P : Disk → Prop} {F : Stop → FsWorld → Prop}
  (safe : ∀ world g, Sound base world g → P world.disk) (sound : Sound base world g)
  (owns : g.Owns n) (caches : Caches world ip n)

include sound owns

/-- Nothing is freed below a root that is missing. -/
theorem Cleared.skip {r : Nat} (inside : r < NDIRECT + 2)
    (freeing : Freeing base n world g (fun p => r ≤ rootOf p) din after g')
    (clears : Clears r (g.view n) din) (missing : din.addr r = 0) :
    Cleared base n world g (r + 1) after := by
  refine ⟨g', din, freeing.congr sound owns fun p _ present => ?_, clears.skip missing⟩
  have absent := clears.addr r inside
  rw [missing, if_neg (Nat.lt_irrefl r)] at absent
  have differ : rootOf p ≠ r := fun same => present (blockAt_of_root_missing (same ▸ absent.symm))
  omega

include safe caches

/-- The last steps for a root: its own block is freed and its address cleared. -/
theorem clearRoot_spec {r : Nat} (inside : r < NDIRECT + 2)
    (freeing : Freeing base n world g left din after g') (clears : Clears r (g.view n) din)
    (present : din.addr r ≠ 0) (isLeft : left (.root r))
    (last : ∀ p, p.Valid fileShape → (left p ↔ r < rootOf p ∨ p = .root r)) :
    (do
      bfree (din.addr r)
      modifyInode ip (·.mapDin (·.setAddr r 0)) : FsM Unit).wp P F
      (fun _ final => Cleared base n world g (r + 1) final) after := by
  have at_r : (g.view n).blockAt world.disk (.root r) = din.addr r := by
    rw [clears.addr r inside, if_neg (Nat.lt_irrefl r)]
    rfl
  rw [← at_r] at present ⊢
  simp only [Prog.wp_bind, modifyInode, Prog.wp_modifyMem]
  have valid : (Pos.root r).Valid fileShape := inside
  refine (bfree_freeing safe sound owns freeing valid isLeft present).mono ?_
  rintro _ middle ⟨g'', freed⟩
  refine ⟨_, _, (freed.reform caches rfl).congr sound owns fun p valid _ => ?_,
    clears.clear inside⟩
  rw [last p valid]
  constructor
  · rintro ⟨above | same, differ⟩
    · exact above
    · exact absurd same differ
  · intro above
    refine ⟨Or.inl above, ?_⟩
    rintro rfl
    exact Nat.lt_irrefl _ above

omit safe sound owns in
theorem Freeing.cached_addr {r : Nat} (freeing : Freeing base n world g left din after g') :
    (after.mem.icache ip).din.addr r = din.addr r := by
  rw [(caches.same freeing.slots).din freeing.sound, freeing.view, Function.update_self]

/-- The direct blocks. -/
theorem itruncDirect_spec (start : Cleared base n world g 0 world) :
    (forEach (List.range NDIRECT) fun i => do
      let inode ← getInode ip
      when (inode.din.addr i ≠ 0) do
        bfree (inode.din.addr i)
        modifyInode ip (·.mapDin (·.setAddr i 0)) : FsM Unit).wp P F
      (fun _ after => Cleared base n world g NDIRECT after) world := by
  refine Prog.wp_forRange (I := fun r after => Cleared base n world g r after) start ?_
  rintro r direct middle ⟨g', din, freeing, clears⟩
  have inside : r < NDIRECT + 2 := by omega
  simp only [Prog.wp_bind, getInode, Prog.wp_getMem, Prog.wp_pure]
  rw [freeing.cached_addr caches]
  unfold when
  split
  · next present =>
    refine clearRoot_spec safe sound owns caches inside freeing clears present (Nat.le_refl r)
      fun p valid => ?_
    rcases position_cases valid with shallow | ⟨far, -⟩ | ⟨far, -⟩
    · rw [shallow]
      simp only [rootOf, Pos.root.injEq]
      omega
    · constructor
      · exact fun _ => Or.inl (by omega)
      · exact fun _ => by omega
    · constructor
      · exact fun _ => Or.inl (by omega)
      · exact fun _ => by omega
  · next missing => exact Cleared.skip sound owns inside freeing clears (not_not.mp missing)

/-- The single-indirect block. -/
theorem itruncSingle_spec (start : Cleared base n world g NDIRECT after) :
    (do
      let inode ← getInode ip
      when (inode.din.addr NDIRECT ≠ 0) do
        let bp ← bread (inode.din.addr NDIRECT)
        itruncIndirect bp
        brelse bp
        bfree (inode.din.addr NDIRECT)
        modifyInode ip (·.mapDin (·.setAddr NDIRECT 0)) : FsM Unit).wp P F
      (fun _ after => Cleared base n world g (NDIRECT + 1) after) after := by
  obtain ⟨g', din, freeing, clears⟩ := start
  have inside : NDIRECT < NDIRECT + 2 := by decide
  have valid : (Pos.root NDIRECT).Valid fileShape := inside
  have height : (Pos.root NDIRECT).height fileShape = 1 := rfl
  have at_root : (g.view n).blockAt world.disk (.root NDIRECT) = din.addr NDIRECT := by
    rw [clears.addr NDIRECT inside, if_neg (Nat.lt_irrefl _)]
    rfl
  simp only [Prog.wp_bind, getInode, Prog.wp_getMem, Prog.wp_pure]
  rw [freeing.cached_addr caches]
  unfold when
  split
  · next present =>
    simp only [Prog.wp_bind, Prog.wp_bread]
    intro slot
    refine (itruncIndirect_freeing safe sound owns freeing valid (by omega)
      (by rwa [at_root]) (fun _ => Nat.le_refl _) at_root.symm).mono ?_
    rintro _ middle ⟨g'', further⟩
    have last := clearRoot_spec (P := P) (F := F) safe sound owns caches inside further clears
      present ⟨Nat.le_refl _, by rintro _ _ ⟨⟩⟩ fun p pValid => ?_
    · simpa only [Prog.wp_bind, brelse, Prog.wp_pure] using last
    rcases position_cases pValid with shallow | ⟨-, j, small, deep⟩ | ⟨far, j, -, i, -, deep⟩
    · rw [shallow]
      simp only [rootOf, Pos.root.injEq]
      constructor
      · rintro ⟨far, -⟩
        omega
      · exact fun _ => ⟨by omega, by rintro _ _ ⟨⟩⟩
    · constructor
      · rintro ⟨far, differ⟩
        refine Or.inl (Nat.lt_of_le_of_ne far fun same => ?_)
        rw [← same] at deep
        exact differ j small deep
      · rintro (far | shallow)
        · refine ⟨Nat.le_of_lt far, fun k _ same => ?_⟩
          rw [same] at far
          exact Nat.lt_irrefl _ far
        · rw [shallow] at deep
          cases deep
    · constructor
      · exact fun _ => Or.inl (by omega)
      · refine fun _ => ⟨by omega, fun k _ same => ?_⟩
        rw [same] at deep
        cases deep
  · next missing => exact Cleared.skip sound owns inside freeing clears (not_not.mp missing)

/-- The double-indirect block. -/
theorem itruncLast_spec (start : Cleared base n world g (NDIRECT + 1) after) :
    (do
      let inode ← getInode ip
      when (inode.din.addr (NDIRECT + 1) ≠ 0) do
        let bp ← bread (inode.din.addr (NDIRECT + 1))
        itruncDouble bp
        brelse bp
        bfree (inode.din.addr (NDIRECT + 1))
        modifyInode ip (·.mapDin (·.setAddr (NDIRECT + 1) 0)) : FsM Unit).wp P F
      (fun _ after => Cleared base n world g (NDIRECT + 2) after) after := by
  obtain ⟨g', din, freeing, clears⟩ := start
  have inside : NDIRECT + 1 < NDIRECT + 2 := by decide
  have valid : (Pos.root (NDIRECT + 1)).Valid fileShape := inside
  have height : (Pos.root (NDIRECT + 1)).height fileShape = 2 := rfl
  have at_root : (g.view n).blockAt world.disk (.root (NDIRECT + 1)) = din.addr (NDIRECT + 1) := by
    rw [clears.addr (NDIRECT + 1) inside, if_neg (Nat.lt_irrefl _)]
    rfl
  simp only [Prog.wp_bind, getInode, Prog.wp_getMem, Prog.wp_pure]
  rw [freeing.cached_addr caches]
  unfold when
  split
  · next present =>
    simp only [Prog.wp_bind, Prog.wp_bread]
    intro slot
    refine (itruncDouble_freeing safe sound owns freeing valid (by omega)
      (by rwa [at_root]) (fun _ => Nat.le_refl _) (fun _ _ => Nat.le_refl _) at_root.symm).mono ?_
    rintro _ middle ⟨g'', further⟩
    have last := clearRoot_spec (P := P) (F := F) safe sound owns caches inside further clears
      present ⟨Nat.le_refl _, fun _ _ => ⟨by rintro ⟨⟩, by rintro _ _ ⟨⟩⟩⟩ fun p pValid => ?_
    · simpa only [Prog.wp_bind, brelse, Prog.wp_pure] using last
    have small := rootOf_lt pValid
    constructor
    · rintro ⟨far, differ⟩
      have same : rootOf p = NDIRECT + 1 := by omega
      rcases position_cases pValid with shallow | ⟨-, j, first, deep⟩ | ⟨-, j, first, i, second, deep⟩
      · exact Or.inr (same ▸ shallow)
      · exact absurd (same ▸ deep) (differ j first).1
      · exact absurd (same ▸ deep) ((differ j first).2 i second)
    · rintro (far | rfl)
      · omega
      · exact ⟨Nat.le_refl _, fun _ _ => ⟨by rintro ⟨⟩, by rintro _ _ ⟨⟩⟩⟩
  · next missing => exact Cleared.skip sound owns inside freeing clears (not_not.mp missing)

end Itrunc

/-- A file without bytes. -/
def Node.truncated (node : Node) : Node := { node with size := 0, bytes := fun _ => 0 }

/-- An inode without blocks. -/
def Dinode.Bare (din : Dinode) : Prop := din.addrs = fun _ => 0

theorem Dinode.Bare.addr {din : Dinode} (bare : din.Bare) (i : Nat) : din.addr i = 0 := by
  unfold Dinode.addr
  rw [bare]
  rfl

theorem Dinode.Bare.blockAt {din : Dinode} (bare : din.Bare) (disk : Disk) (p : Pos) :
    din.blockAt disk p = 0 :=
  blockAt_of_root_missing (bare.addr _)

theorem Dinode.Bare.content {din : Dinode} (bare : din.Bare) (disk : Disk) :
    content disk din = fun _ => 0 := by
  funext off
  exact if_pos (bare.blockAt disk _)

/-- An empty file is in order. -/
theorem FileSound.of_empty {disk : Disk} {g : Ghost} {n : Nat} (size : (g.view n).size = 0) :
    FileSound disk g n := by
  have empty : (g.view n).size.toNat = 0 := by rw [size]; rfl
  refine ⟨by omega, fun bn inside => by omega, fun _ => ⟨fun _ => ?_, fun off _ inside => ?_⟩⟩
  · change DIRENT_SIZE ∣ (g.view n).size.toNat
    rw [empty]
    exact Nat.dvd_zero _
  · change off + DIRENT_SIZE ≤ (g.view n).size.toNat at inside
    simp only [DIRENT_SIZE] at inside
    omega

/-- A tree of which nothing is left becomes an empty one in place. -/
theorem Freeing.put {base : Set Nat} {world after : FsWorld} {g g' : Ghost} {n : Nat}
    {left : Pos → Prop} {din din' : Dinode} {kernel : Kernel}
    (freeing : Freeing base n world g left din after g') (sound : Sound base world g)
    (idle : g.Idle) (owns : g.Owns n) (unpinned : n ∉ g.pinned)
    (none : ∀ p, p.Valid fileShape → ¬ left p) (bare : din'.Bare) (empty : din'.size = 0)
    (sameSb : kernel.sb = after.mem.sb) (mounted : kernel.xv6fsMounted = true)
    (cache : CacheSound kernel (g'.put n din')) :
    (∀ b p, g'.tag b ≠ .owned n p) ∧
      Sound base
        { mem := kernel
          disk := Function.update after.disk (iblock g.sb n)
            (setDinode (after.disk (iblock g.sb n)) (n % IPB) din') } (g'.put n din') ∧
      (g'.put n din').files (Function.update after.disk (iblock g.sb n)
          (setDinode (after.disk (iblock g.sb n)) (n % IPB) din')) =
        Function.update (g.files world.disk) n
          (if din'.type = 0 then Option.none else some (din'.node world.disk)) := by
  have inRange : n < g'.sb.ninodes := freeing.sb ▸ owns.inRange
  have untagged : ∀ b p, g'.tag b ≠ .owned n p := by
    intro b p tag
    obtain ⟨isLeft, tagged⟩ := (freeing.tags b p).mp tag
    exact none p (sound.blocks.owned b n p tagged owns.attached).2.1 isLeft
  have only : OnlyDirty g' n :=
    { dirty := fun i dirty => by rw [freeing.dirty] at dirty; cases dirty
      detached := fun i detached => by
        rw [freeing.detached] at detached
        exact (Option.some.inj detached).symm }
  have points : (g'.put n din').Owns n → ∀ p, p.Valid fileShape →
      din'.blockAt after.disk p ≠ 0 → g'.tag (din'.blockAt after.disk p) = .owned n p :=
    fun _ p _ present => absurd (bare.blockAt _ _) present
  have owned : ∀ b p, g'.tag b = .owned n p →
      (g'.put n din').Owns n ∧ p.Valid fileShape ∧ din'.blockAt after.disk p = b :=
    fun b p tag => absurd tag (untagged b p)
  have before := freeing.sound.blocks_put only points owned
  have stored := freeing.sound.put inRange only sameSb mounted cache points owned
    (fun _ => .of_empty (by rw [put_view_self, empty]))
    fun member => absurd (freeing.pinned ▸ member) unpinned
  have files := freeing.sound.files_put inRange before
  rw [freeing.sb] at stored files
  refine ⟨untagged, stored, files.trans ?_⟩
  funext i
  by_cases same : i = n
  · subst same
    rw [Function.update_self, Function.update_self]
    unfold Dinode.node
    rw [bare.content, bare.content]
  · rw [Function.update_of_ne same, Function.update_of_ne same]
    have view : g'.view i = g.view i := by rw [freeing.view, Function.update_of_ne same]
    refine Ghost.files_congr freeing.sb (by rw [view]) fun small allocated => ?_
    rw [view]
    refine node_same sound.blocks ⟨small, allocated, idle.attached i⟩ fun b p tag => ?_
    exact freeing.same b (by rw [tag]; simp)

section Operations

variable {base : Set Nat} {world : FsWorld} {g : Ghost} {n : Nat} {ip : Slot}
  {P : Disk → Prop} {F : Stop → FsWorld → Prop}
  (safe : ∀ world g, Sound base world g → P world.disk)

include safe

/-- `itrunc` leaves an empty file without blocks. -/
theorem itrunc_spec (sound : Sound base world g) (idle : g.Idle) (caches : Caches world ip n)
    (owns : g.Owns n) (unpinned : n ∉ g.pinned) :
    (itrunc ip).wp P F
      (fun _ after => ∃ g', Caches after ip n ∧ (∀ b p, g'.tag b ≠ .owned n p) ∧
        ∀ floor, Moves base floor 0 world g
          (Function.update (g.files world.disk) n
            (some ((g.view n).node world.disk).truncated)) g.held after g') world := by
  have start : Cleared base n world g 0 world :=
    ⟨g.detach n, g.view n,
      { sound := sound.detach idle unpinned
        detached := rfl
        sb := rfl
        held := rfl
        pinned := rfl
        aligned := rfl
        dirty := idle.dirty
        credit := Nat.le_refl _
        taken := fun _ => Or.inl rfl
        view := (Function.update_eq_self n g.view).symm
        slots := SameSlots.refl _
        same := fun _ _ => rfl
        tags := fun x p => by simp [Ghost.detach] },
      ⟨rfl, rfl, rfl, rfl, fun i _ => by rw [if_neg (Nat.not_lt_zero i)]⟩⟩
  unfold itrunc
  rw [Prog.wp_bind]
  refine (itruncDirect_spec safe sound owns caches start).mono fun _ first direct => ?_
  have single := itruncSingle_spec (P := P) (F := F) safe sound owns caches direct
  rw [← bind_assoc, Prog.wp_bind]
  refine single.mono fun _ second indirect => ?_
  have double := itruncLast_spec (P := P) (F := F) safe sound owns caches indirect
  rw [← bind_assoc, Prog.wp_bind]
  refine double.mono ?_
  rintro _ third ⟨g', din, freeing, clears⟩
  have cachesStill := caches.same freeing.slots
  have view : g'.view n = din := by rw [freeing.view, Function.update_self]
  have allocated : din.type ≠ 0 := by
    rw [clears.type]
    exact owns.allocated
  have bare : ({ din with size := 0 } : Dinode).Bare := by
    funext i
    have zero := clears.addr i i.isLt
    rw [if_pos i.isLt] at zero
    refine BitVec.eq_of_toNat_eq ?_
    unfold Dinode.addr at zero
    rwa [show Fin.ofNat (NDIRECT + 2) i = i from Fin.ext (Nat.mod_eq_of_lt i.isLt)] at zero
  simp only [Prog.wp_bind, modifyInode, Prog.wp_modifyMem]
  have slots := sameSlots_setDin third.mem ip ({ · with size := 0 })
  have cached : (((third.mem.setInode ip (·.mapDin ({ · with size := 0 }))).icache ip).din) =
      { din with size := 0 } := by
    simp [Kernel.setInode, Inode.mapDin, cachesStill.din freeing.sound, view]
  have cache : CacheSound (third.mem.setInode ip (·.mapDin ({ · with size := 0 })))
      (g'.put n { din with size := 0 }) := by
    refine freeing.sound.cache.setDin cachesStill.inUse cachesStill.valid ?_ rfl rfl ?_
    · rwa [cachesStill.inum, view]
    · rw [cachesStill.inum, view]
      rfl
  have sameSb : (third.mem.setInode ip (·.mapDin ({ · with size := 0 }))).sb =
      third.mem.sb := rfl
  obtain ⟨untagged, stored, files⟩ := freeing.put sound idle owns unpinned
    (fun p valid far => absurd (rootOf_lt valid) (Nat.not_lt.mpr far)) bare rfl sameSb
    freeing.sound.mounted cache
  refine iupdate_wp (g := g) ((sameSb.trans freeing.sound.sameSb).trans freeing.sb)
    ((slots ip).2.1.trans cachesStill.inum) ?_ ?_
  · rw [cached]
    exact safe _ _ stored
  · rw [cached]
    refine ⟨g'.put n { din with size := 0 }, cachesStill.same slots, untagged, fun floor => ?_⟩
    exact
      { sound := stored
        sb := freeing.sb
        aligned := freeing.aligned
        credit := freeing.credit
        taken := fun _ => freeing.taken
        settled := fun b => freeing.settled b
        idle := ⟨rfl, rfl⟩
        keeps := (freeing.slots.trans slots).keeps floor
        refs := congrArg₂ (· - ·) (freeing.slots.trans slots).refs freeing.held
        files := by
          rw [files, if_neg allocated]
          unfold Node.truncated Dinode.node
          rw [bare.content]
          simp only [clears.type, clears.major, clears.minor, clears.nlink]
        held := freeing.held
        pinned := freeing.pinned }

end Operations

end Notux.Fs
