import Notux.Fs.Allocator

/-!
# The block map

`bmap` returns the block at a position of the tree of an inode.  A block that is
there already is found without a change.  A missing one is allocated, zeroed and
attached, together with the blocks of block numbers on the way to it, and no file
changes its bytes.
-/

namespace Notux.Fs

open Notux.Store Notux.Proc

/-- An entry of the inode table holds a loaded inode. -/
structure Caches (world : FsWorld) (ip : Slot) (n : Nat) : Prop where
  inUse : 0 < (world.mem.icache ip).ref
  valid : (world.mem.icache ip).valid = true
  inum : (world.mem.icache ip).inum = n

/-- The entries of the inode table differ at most in the fields of inodes. -/
def SameSlots (kernel kernel' : Kernel) : Prop :=
  ∀ ip, (kernel'.icache ip).ref = (kernel.icache ip).ref ∧
    (kernel'.icache ip).inum = (kernel.icache ip).inum ∧
    (kernel'.icache ip).valid = (kernel.icache ip).valid

theorem SameSlots.refl (kernel : Kernel) : SameSlots kernel kernel := fun _ => ⟨rfl, rfl, rfl⟩

theorem SameSlots.trans {first second third : Kernel} (left : SameSlots first second)
    (right : SameSlots second third) : SameSlots first third :=
  fun ip => ⟨(right ip).1.trans (left ip).1, (right ip).2.1.trans (left ip).2.1,
    (right ip).2.2.trans (left ip).2.2⟩

theorem sameSlots_setDin (kernel : Kernel) (ip : Slot) (change : Dinode → Dinode) :
    SameSlots kernel (kernel.setInode ip (·.mapDin change)) := by
  intro other
  by_cases same : other = ip
  · subst same
    simp [Kernel.setInode, Inode.mapDin]
  · simp [Kernel.setInode, same]

theorem Caches.same {world after : FsWorld} {ip : Slot} {n : Nat} (caches : Caches world ip n)
    (same : SameSlots world.mem after.mem) : Caches after ip n :=
  ⟨(same ip).1 ▸ caches.inUse, (same ip).2.2.trans caches.valid,
    (same ip).2.1.trans caches.inum⟩

theorem Caches.din {base : Set Nat} {world : FsWorld} {g : Ghost} {ip : Slot} {n : Nat}
    (caches : Caches world ip n) (sound : Sound base world g) :
    (world.mem.icache ip).din = g.view n :=
  caches.inum ▸ (sound.cache.cached ip caches.inUse caches.valid).1

theorem Caches.owns {base : Set Nat} {world : FsWorld} {g : Ghost} {ip : Slot} {n : Nat}
    (caches : Caches world ip n) (sound : Sound base world g) (attached : g.detached ≠ some n) :
    g.Owns n :=
  ⟨caches.inum ▸ sound.cache.inRange ip caches.inUse,
    caches.inum ▸ (sound.cache.cached ip caches.inUse caches.valid).2, attached⟩

/-- The tree of inode `n` may have grown by up to `k` blocks; every file is what it
was. -/
structure Grows (n k : Nat) (world : FsWorld) (g : Ghost) (after : FsWorld) (g' : Ghost) :
    Prop where
  sb : g'.sb = g.sb
  held : g'.held = g.held
  detached : g'.detached = g.detached
  pinned : g'.pinned = g.pinned
  aligned : g'.aligned = g.aligned
  only : OnlyDirty g n → OnlyDirty g' n
  credit : g.credit ≤ g'.credit + k
  slots : SameSlots world.mem after.mem
  owns : ∀ i, g'.Owns i ↔ g.Owns i
  nodes : ∀ i, g.Owns i → (g'.view i).node after.disk = (g.view i).node world.disk
  others : ∀ i, i ≠ n → g'.view i = g.view i
  keeps : ∀ p, p.Valid fileShape → (g.view n).blockAt world.disk p ≠ 0 →
    (g'.view n).blockAt after.disk p = (g.view n).blockAt world.disk p

namespace Grows

variable {n k m : Nat} {world middle after : FsWorld} {g g' g'' : Ghost}

theorem refl (n k : Nat) (world : FsWorld) (g : Ghost) : Grows n k world g world g :=
  ⟨rfl, rfl, rfl, rfl, rfl, id, Nat.le_add_right _ _, SameSlots.refl _, fun _ => Iff.rfl,
    fun _ _ => rfl, fun _ _ => rfl, fun _ _ _ => rfl⟩

theorem trans (first : Grows n k world g middle g') (second : Grows n m middle g' after g'') :
    Grows n (k + m) world g after g'' where
  sb := second.sb.trans first.sb
  held := second.held.trans first.held
  detached := second.detached.trans first.detached
  pinned := second.pinned.trans first.pinned
  aligned := second.aligned.trans first.aligned
  only only := second.only (first.only only)
  credit := by
    have left := first.credit
    have right := second.credit
    omega
  slots := first.slots.trans second.slots
  owns i := (second.owns i).trans (first.owns i)
  nodes i owns := (second.nodes i ((first.owns i).mpr owns)).trans (first.nodes i owns)
  others i differ := (second.others i differ).trans (first.others i differ)
  keeps p valid present := by
    have step := first.keeps p valid present
    rw [← step] at present ⊢
    exact second.keeps p valid present

theorem mono (grows : Grows n k world g after g') (more : k ≤ m) :
    Grows n m world g after g' :=
  { grows with credit := Nat.le_trans grows.credit (Nat.add_le_add_left more _) }

end Grows

section BlockMap

variable {base : Set Nat} {world : FsWorld} {g : Ghost} {P : Disk → Prop}
  {F : Stop → FsWorld → Prop} {n : Nat}

/-- Allocating a block that is not yet attached. -/
theorem Allocates.grows {after : FsWorld} {b : Nat} (sound : Sound base world g)
    (allocates : Allocates world after g b) (owns : g.Owns n) :
    Grows n 1 world g after (g.retag b .loose (g.credit - 1)) := by
  have same : ∀ i, SameBlocks g i world.disk after.disk := fun i x p tag =>
    allocates.same x (by rw [tag]; simp) (by rw [tag]; simp)
  exact
    { sb := rfl
      held := rfl
      detached := rfl
      pinned := rfl
      aligned := rfl
      only := fun only => ⟨only.dirty, only.detached⟩
      credit := by change g.credit ≤ g.credit - 1 + 1; omega
      slots := by rw [allocates.mem]; exact SameSlots.refl _
      owns := fun i => ⟨fun owns => owns.of_retag, fun owns => owns.retag⟩
      nodes := fun i owned => show (g.view i).node after.disk = _ from
        node_same sound.blocks owned (same i)
      others := fun _ _ => rfl
      keeps := fun p valid _ => show (g.view n).blockAt after.disk p = _ from
        blockAt_same sound.blocks owns (same n) valid }

theorem Allocates.ne_zero {after : FsWorld} {b : Nat} (allocates : Allocates world after g b)
    (sound : Sound base world g) : b ≠ 0 := by
  rintro rfl
  have low := (sound.blocks.metadata 0).mpr
    (Nat.lt_of_le_of_lt (Nat.zero_le _) sound.laid.bitmap)
  rw [allocates.free] at low
  cases low

/-- Attaching a block that has been allocated. -/
theorem Attaches.grows {kernel : Kernel} {disk : Disk} {b : Nat} {target : Pos} {din : Dinode}
    {dirty : Option Nat} (attaches : Attaches world.disk disk g n target b din)
    (sound : Sound base world g) (slots : SameSlots world.mem kernel)
    (only : OnlyDirty g n → ∀ i, dirty = some i → i = n) :
    Grows n 0 world g ⟨kernel, disk⟩ (g.attach n target b din dirty) where
  sb := rfl
  held := rfl
  detached := rfl
  pinned := rfl
  aligned := rfl
  only before := ⟨only before, before.detached⟩
  credit := Nat.le_refl _
  slots := slots
  owns := attaches.owns_iff
  nodes i owns := by
    by_cases same : i = n
    · subst same
      rw [Attaches.view_self]
      exact attaches.node sound.blocks
    · rw [Attaches.view_of_ne same]
      exact node_same sound.blocks owns (attaches.others i same)
  others i differ := Attaches.view_of_ne differ
  keeps p valid present := by
    rw [Attaches.view_self, attaches.blockAt valid, if_neg]
    rintro rfl
    exact present attaches.missing

/-- A block that is allocated and attached at once. -/
theorem attach_settled {b credit : Nat} {target : Pos} {din : Dinode} {dirty : Option Nat} (x : Nat)
    (loose : ((g.retag b .loose credit).attach n target b din dirty).tag x = .loose) :
    g.tag x = .loose := by
  change Function.update (Function.update g.tag b .loose) b _ x = .loose at loose
  by_cases same : x = b
  · rw [same, Function.update_self] at loose
    cases loose
  · rwa [Function.update_of_ne same, Function.update_of_ne same] at loose

/-- What `bmap` and its parts return: the block at a position. -/
structure Maps (base : Set Nat) (n k : Nat) (p : Pos) (world : FsWorld) (g : Ghost) (b : Nat)
    (after : FsWorld) (g' : Ghost) : Prop where
  sound : Sound base after g'
  grows : Grows n k world g after g'
  at_p : (g'.view n).blockAt after.disk p = b
  present : b ≠ 0
  settled : ∀ x, g'.tag x = .loose → g.tag x = .loose

variable (safe : ∀ world g, Sound base world g → P world.disk)

include safe

section

variable {ip : Slot} {k : Nat}
  (full : g.credit < k → ∀ world g, Sound base world g → g.freeBlocks = 0 →
    F .ballocOutOfBlocks world)

include full

theorem bmapAddr_spec (one : 0 < k) (sound : Sound base world g) (caches : Caches world ip n)
    (only : OnlyDirty g n) (owns : g.Owns n) {r : Nat} (root : r < fileShape.roots) :
    (bmapAddr ip r).wp P F
      (fun b after => ∃ g', Maps base n 1 (.root r) world g b after g') world := by
  unfold bmapAddr getInode
  simp only [Prog.wp_bind, Prog.wp_getMem, Prog.wp_pure]
  rw [caches.din sound]
  split
  · next missing =>
    simp only [Prog.wp_bind]
    refine (balloc_spec safe (fun none => full (by omega)) sound).mono fun b middle => ?_
    rintro ⟨allocates, marked⟩
    have grown := allocates.grows sound owns
    have cachesStill := caches.same grown.slots
    have attaches := marked.attaches_root owns.retag root missing (retag_tag_self _ _ _ _)
      allocates.zero
    have attached := marked.attach_root cachesStill.inUse cachesStill.valid cachesStill.inum
      (grown.only only) owns.retag root missing (retag_tag_self _ _ _ _) allocates.zero
    simp only [modifyInode, Prog.wp_modifyMem, Prog.wp_pure]
    refine ⟨_, attached, ?_, ?_, allocates.ne_zero sound, attach_settled⟩
    · refine grown.trans (Attaches.grows attaches marked (sameSlots_setDin _ _ _) ?_)
      rintro - i same
      exact (Option.some.inj same).symm
    · rw [Attaches.view_self]
      exact (attaches.blockAt (show (Pos.root r).Valid fileShape from root)).trans (if_pos rfl)
  · next present => exact ⟨g, sound, Grows.refl _ _ _ _, rfl, present, fun _ => id⟩

theorem bmapIndirect_spec (one : 0 < k) (sound : Sound base world g) (owns : g.Owns n)
    {parent : Pos} (parentValid : parent.Valid fileShape) (above : 0 < parent.height fileShape)
    {j : Nat} (entry : j < NINDIRECT) (present : (g.view n).blockAt world.disk parent ≠ 0) :
    (bmapIndirect ((g.view n).blockAt world.disk parent) j).wp P F
      (fun b after => ∃ g', Maps base n 1 (.child parent j) world g b after g') world := by
  unfold bmapIndirect
  simp only [Prog.wp_bind, Prog.wp_bread, Prog.wp_data]
  intro slot
  split
  · next missing =>
    simp only [Prog.wp_bind]
    refine (balloc_spec safe (fun none => full (by omega)) sound).mono fun b middle => ?_
    rintro ⟨allocates, marked⟩
    have grown := allocates.grows sound owns
    have place : ((g.retag b .loose (g.credit - 1)).view n).blockAt middle.disk parent =
        (g.view n).blockAt world.disk parent := grown.keeps parent parentValid present
    have tagged := sound.blocks.points n parent owns parentValid present
    have sameParent : middle.disk ((g.view n).blockAt world.disk parent) =
        world.disk ((g.view n).blockAt world.disk parent) :=
      allocates.same _ (by rw [tagged]; simp) (by rw [tagged]; simp)
    have attaches := marked.attaches_child owns.retag parentValid above entry
      (by rwa [place]) (by rwa [place, sameParent]) (retag_tag_self _ _ _ _) allocates.zero
    have attached := marked.attach_child owns.retag parentValid above entry
      (by rwa [place]) (by rwa [place, sameParent]) (retag_tag_self _ _ _ _) allocates.zero
    rw [place] at attaches attached
    simp only [Prog.wp_data, Prog.wp_logWrite]
    refine ⟨safe _ _ attached, _, attached, ?_, ?_, allocates.ne_zero sound, attach_settled⟩
    · refine grown.trans (Attaches.grows attaches marked (SameSlots.refl _) ?_)
      exact fun only => only.dirty
    · rw [Attaches.view_self]
      have valid : (Pos.child parent j).Valid fileShape := ⟨parentValid, above, entry⟩
      exact (attaches.blockAt valid).trans (if_pos rfl)
  · next found =>
    refine ⟨g, sound, Grows.refl _ _ _ _, ?_, found, fun _ => id⟩
    exact blockAt_child present j

end

/-- `bmap` returns the block of the file at `bn`. -/
theorem bmap_spec {ip : Slot}
    (full : g.credit < 3 → ∀ world g, Sound base world g → g.freeBlocks = 0 →
      F .ballocOutOfBlocks world)
    (sound : Sound base world g) (caches : Caches world ip n) (only : OnlyDirty g n)
    (owns : g.Owns n) {bn : Nat} (inside : bn < MAXFILE) :
    (bmap ip bn).wp P F
      (fun b after => ∃ g', Maps base n 3 (posOf bn) world g b after g') world := by
  have single : (Pos.root NDIRECT).Valid fileShape := show NDIRECT < NDIRECT + 2 by decide
  have double : (Pos.root (NDIRECT + 1)).Valid fileShape :=
    show NDIRECT + 1 < NDIRECT + 2 by decide
  have singleHeight : (Pos.root NDIRECT).height fileShape = 1 := rfl
  have doubleHeight : (Pos.root (NDIRECT + 1)).height fileShape = 2 := rfl
  unfold bmap posOf
  split
  · next direct =>
    have root : bn < fileShape.roots := Nat.lt_of_lt_of_le direct (by decide)
    refine (bmapAddr_spec safe full (by omega) sound caches only owns root).mono ?_
    rintro b after ⟨g', maps⟩
    exact ⟨g', { maps with grows := maps.grows.mono (by omega) }⟩
  · split
    · next beyond entry =>
      simp only [Prog.wp_bind]
      refine (bmapAddr_spec safe full (by omega) sound caches only owns single).mono ?_
      rintro _ middle ⟨g', ⟨found, grows, rfl, present, settled⟩⟩
      have spent := grows.credit
      refine (bmapIndirect_spec (k := 2) safe (fun low => full (by omega)) (by omega) found
        ((grows.owns n).mpr owns) single (by omega) entry present).mono ?_
      rintro b after ⟨g'', maps⟩
      exact ⟨g'', { maps with
        grows := (grows.trans maps.grows).mono (by omega)
        settled := fun x loose => settled x (maps.settled x loose) }⟩
    · next beyond entry =>
      have small : (bn - NDIRECT - NINDIRECT) / NINDIRECT < NINDIRECT := by
        simp only [MAXFILE, NDINDIRECT, NDIRECT, NINDIRECT] at inside ⊢
        omega
      have level : (Pos.child (.root (NDIRECT + 1))
          ((bn - NDIRECT - NINDIRECT) / NINDIRECT)).Valid fileShape :=
        ⟨double, by omega, small⟩
      have levelHeight : (Pos.child (.root (NDIRECT + 1))
          ((bn - NDIRECT - NINDIRECT) / NINDIRECT)).height fileShape = 1 := rfl
      rw [if_pos (by simp only [MAXFILE, NDINDIRECT, NDIRECT, NINDIRECT] at *; omega)]
      simp only [Prog.wp_bind]
      refine (bmapAddr_spec safe full (by omega) sound caches only owns double).mono ?_
      rintro _ first ⟨g', ⟨firstSound, firstGrows, rfl, firstPresent, firstSettled⟩⟩
      have firstSpent := firstGrows.credit
      refine (bmapIndirect_spec (k := 2) safe (fun low => full (by omega)) (by omega) firstSound
        ((firstGrows.owns n).mpr owns) double (by omega) small firstPresent).mono ?_
      rintro _ second ⟨g'', ⟨secondSound, secondGrows, rfl, secondPresent, secondSettled⟩⟩
      have secondSpent := secondGrows.credit
      have grows := firstGrows.trans secondGrows
      refine (bmapIndirect_spec (k := 1) safe (fun low => full (by omega)) (by omega) secondSound
        ((grows.owns n).mpr owns) level (by omega) (Nat.mod_lt _ (by decide))
        secondPresent).mono ?_
      rintro b after ⟨gLast, maps⟩
      exact ⟨gLast, { maps with
        grows := (grows.trans maps.grows).mono (by omega)
        settled := fun x loose => firstSettled x (secondSettled x (maps.settled x loose)) }⟩

omit safe in
theorem bmapAddr_present {ip : Slot} {r : Nat}
    (present : (world.mem.icache ip).din.addr r ≠ 0) {Q : Nat → FsWorld → Prop}
    (rest : Q ((world.mem.icache ip).din.addr r) world) : (bmapAddr ip r).wp P F Q world := by
  unfold bmapAddr getInode
  simp only [Prog.wp_bind, Prog.wp_getMem, Prog.wp_pure]
  rw [if_neg present]
  exact rest

omit safe in
theorem bmapIndirect_present {addr j : Nat} (present : word (world.disk addr) j ≠ 0)
    {Q : Nat → FsWorld → Prop} (rest : Q (word (world.disk addr) j) world) :
    (bmapIndirect addr j).wp P F Q world := by
  unfold bmapIndirect
  simp only [Prog.wp_bind, Prog.wp_bread, Prog.wp_data]
  intro slot
  rw [if_neg present]
  exact rest

omit safe in
/-- A block that is there is reached through blocks that are there. -/
theorem parent_present {din : Dinode} {disk : Disk} {parent : Pos} {j : Nat}
    (present : din.blockAt disk (.child parent j) ≠ 0) : din.blockAt disk parent ≠ 0 :=
  fun missing => present (Pos.blockAt_child_of_zero missing j)

omit safe in
/-- `bmap` changes nothing where the file has a block. -/
theorem bmap_present {ip : Slot} (sound : Sound base world g) (caches : Caches world ip n)
    {bn : Nat} (present : (g.view n).blockAt world.disk (posOf bn) ≠ 0)
    {Q : Nat → FsWorld → Prop} (rest : Q ((g.view n).blockAt world.disk (posOf bn)) world) :
    (bmap ip bn).wp P F Q world := by
  have inside := posOf_valid_of_ne_zero present
  rw [← caches.din sound] at present rest
  unfold posOf at present rest
  unfold bmap
  split
  · next direct =>
    rw [if_pos direct] at present rest
    exact bmapAddr_present present rest
  · next beyond =>
    rw [if_neg beyond] at present rest
    split
    · next entry =>
      rw [if_pos entry] at present rest
      have parent := parent_present present
      rw [blockAt_child parent] at present rest
      simp only [Prog.wp_bind]
      exact bmapAddr_present parent (bmapIndirect_present present rest)
    · next far =>
      rw [if_neg far] at present rest
      rw [if_pos (by simp only [MAXFILE, NDINDIRECT, NDIRECT, NINDIRECT] at *; omega)]
      have parent := parent_present present
      have grandparent := parent_present parent
      rw [blockAt_child parent] at present rest
      rw [blockAt_child grandparent] at parent present rest
      simp only [Prog.wp_bind]
      exact bmapAddr_present grandparent
        (bmapIndirect_present parent (bmapIndirect_present present rest))

end BlockMap

end Notux.Fs
