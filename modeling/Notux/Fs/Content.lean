import Notux.Fs.Lifetime

/-!
# Reading and writing file content

`readi` returns bytes of the file and changes nothing; `writei` overwrites bytes
of the file, block by block, and grows it.  Between two blocks the file has its
old size and new bytes.
-/

namespace Notux.Fs

open Notux.Store Notux.Proc

/-! ## Files as arrays of bytes -/

/-- The bytes of a file from `off` on. -/
def Node.slice (node : Node) (off len : Nat) : List Byte :=
  (List.range len).map fun i => node.bytes (off + i)

/-- What `readi` returns. -/
def Node.read (node : Node) (off n : Nat) : Int × List Byte :=
  if node.type = T_DEV then
    if devswSet node.major then (0, []) else (-1, [])
  else if off > node.size.toNat ∨ (off + n) % 2 ^ 32 < off then (-1, [])
  else if off + n > node.size.toNat then
    (toInt32 (node.size.toNat - off), node.slice off (node.size.toNat - off))
  else (toInt32 n, node.slice off n)

/-- What `writei` does to a file. -/
def Node.write (node : Node) (src : Nat → Byte) (off n : Nat) : Int × Node :=
  if node.type = T_DEV then
    if devswSet node.major then (toInt32 n, node) else (-1, node)
  else if off > node.size.toNat ∨ (off + n) % 2 ^ 32 < off then (-1, node)
  else if off + n > MAXFILE * BSIZE then (-1, node)
  else
    (toInt32 n,
      { node with
        bytes := overwrite node.bytes off n src
        size := if off + n > node.size.toNat then BitVec.ofNat 32 (off + n) else node.size })

theorem toInt32_eq {n : Nat} (small : n < 2 ^ 31) : toInt32 n = n := by
  unfold toInt32
  have value : (BitVec.ofNat 32 n).toNat = n := Nat.mod_eq_of_lt (by omega)
  rw [BitVec.toInt_eq_toNat_of_lt (by omega), value]

/-- A sum that does not wrap around. -/
theorem no_wrap {off n : Nat} (offSmall : off < 2 ^ 32) (small : n < 2 ^ 32)
    (forward : ¬ (off + n) % 2 ^ 32 < off) : (off + n) % 2 ^ 32 = off + n := by
  refine Nat.mod_eq_of_lt (Nat.lt_of_not_le fun wrapped => forward ?_)
  rw [Nat.mod_eq_sub_mod wrapped, Nat.mod_eq_of_lt (by omega)]
  omega

theorem overwrite_zero (bytes : Nat → Byte) (off : Nat) (src : Nat → Byte) :
    overwrite bytes off 0 src = bytes := by
  funext i
  unfold overwrite
  rw [if_neg (by omega)]

/-- Overwriting two ranges that follow each other. -/
theorem overwrite_overwrite (bytes : Nat → Byte) (off m k : Nat) (src : Nat → Byte) :
    overwrite (overwrite bytes off m src) (off + m) k (fun i => src (m + i)) =
      overwrite bytes off (m + k) src := by
  funext i
  unfold overwrite
  by_cases first : off ≤ i ∧ i < off + m
  · rw [if_neg (by omega), if_pos first, if_pos (by omega)]
  · by_cases second : off + m ≤ i ∧ i < off + m + k
    · rw [if_pos second, if_pos (by omega)]
      exact congrArg src (show m + (i - (off + m)) = i - off by omega)
    · rw [if_neg second, if_neg first, if_neg (by omega)]

theorem slice_append (node : Node) (off m k : Nat) :
    node.slice off m ++ node.slice (off + m) k = node.slice off (m + k) := by
  unfold Node.slice
  rw [List.range_add, List.map_append, List.map_map]
  congr 1
  exact List.map_congr_left fun i _ => by simp [Nat.add_assoc]

/-- The block and the place in it of a byte near `off`. -/
theorem div_mod_near (off i : Nat) (near : off % BSIZE + i < BSIZE) :
    (off + i) / BSIZE = off / BSIZE ∧ (off + i) % BSIZE = off % BSIZE + i := by
  simp only [BSIZE] at *
  omega

/-- The bytes of one block are bytes of the file. -/
theorem slice_block {disk : Disk} {din : Dinode} {off m : Nat}
    (present : din.blockAt disk (posOf (off / BSIZE)) ≠ 0) (fits : off % BSIZE + m ≤ BSIZE) :
    (disk (din.blockAt disk (posOf (off / BSIZE)))).slice (off % BSIZE) m =
      (din.node disk).slice off m := by
  unfold Buffer.slice Node.slice
  refine List.map_congr_left fun i member => ?_
  have inside := List.mem_range.mp member
  obtain ⟨sameBlock, place⟩ := div_mod_near off i (by omega)
  change _ = content disk din (off + i)
  rw [content, sameBlock, place, if_neg present]

section Reading

variable {base : Set Nat} {world : FsWorld} {g : Ghost} {n : Nat} {ip : Slot}
  {P : Disk → Prop} {F : Stop → FsWorld → Prop}
  (sound : Sound base world g) (caches : Caches world ip n) (owns : g.Owns n)

include sound caches owns

theorem readiLoop_spec {fuel off rest : Nat} (enough : rest ≤ fuel)
    (inside : off + rest ≤ (g.view n).size.toNat) {Q : List Byte → FsWorld → Prop}
    (result : Q (((g.view n).node world.disk).slice off rest) world) :
    (readiLoop ip fuel off rest).wp P F Q world := by
  induction fuel generalizing off rest Q with
  | zero =>
      have done : rest = 0 := by omega
      subst done
      exact result
  | succ fuel ih =>
      unfold readiLoop
      split
      · next done =>
        subst done
        exact result
      · next more =>
        have blockStart : off / BSIZE * BSIZE < (g.view n).size.toNat := by
          simp only [BSIZE]
          omega
        have present := (sound.files n owns).full _ blockStart
        simp only [Prog.wp_bind]
        refine bmap_present sound caches present ?_
        simp only [Prog.wp_bread, Prog.wp_data, brelse, Prog.wp_pure]
        intro slot
        refine ih ?_ ?_ ?_
        · simp only [BSIZE]
          omega
        · simp only [BSIZE]
          omega
        · rw [slice_block present (by simp only [BSIZE]; omega), slice_append]
          have whole : min rest (BSIZE - off % BSIZE) + (rest - min rest (BSIZE - off % BSIZE)) =
              rest := by omega
          rw [whole]
          exact result

/-- `readi` returns bytes of the file. -/
theorem readi_spec {off len : Nat} (small : len < 2 ^ 32) {Q : Int × List Byte → FsWorld → Prop}
    (result : Q (((g.view n).node world.disk).read off len) world) :
    (readi ip off len).wp P F Q world := by
  have din := caches.din sound
  have size : ((g.view n).node world.disk).size = (g.view n).size := rfl
  unfold Node.read at result
  unfold readi getInode
  simp only [Prog.wp_bind, Prog.wp_getMem, Prog.wp_pure, din]
  split
  · next device =>
    rw [if_pos (show ((g.view n).node world.disk).type = T_DEV from device)] at result
    by_cases handlers : devswSet (g.view n).major = true
    · rw [if_pos handlers]
      rwa [if_pos (show devswSet ((g.view n).node world.disk).major = true from handlers)]
        at result
    · rw [if_neg handlers]
      rwa [if_neg (show ¬ devswSet ((g.view n).node world.disk).major = true from handlers)]
        at result
  · next notDevice =>
    rw [if_neg (show ¬ ((g.view n).node world.disk).type = T_DEV from notDevice), size] at result
    split
    · next outside => rwa [if_pos outside] at result
    · next valid =>
      rw [if_neg valid] at result
      obtain ⟨below, forward⟩ := not_or.mp valid
      have offSmall : off < 2 ^ 32 := Nat.lt_of_le_of_lt (Nat.not_lt.mp below) (g.view n).size.isLt
      rw [no_wrap offSmall small forward]
      simp only [Prog.wp_bind]
      by_cases long : off + len > (g.view n).size.toNat
      · rw [if_pos long] at result ⊢
        exact readiLoop_spec sound caches owns (Nat.le_refl _) (by omega) result
      · rw [if_neg long] at result ⊢
        exact readiLoop_spec sound caches owns (Nat.le_refl _) (by omega) result

end Reading

/-! ## Writing -/

theorem EntriesSound.congr {g g' : Ghost} {i : Nat} {node : Node}
    (entries : EntriesSound g i node) (sb : g'.sb = g.sb) (pinned : g'.pinned = g.pinned)
    (aligned : g'.aligned = g.aligned) : EntriesSound g' i node := by
  unfold EntriesSound
  rw [sb, pinned, aligned]
  exact entries

theorem EntriesSound.of_notDir {g : Ghost} {i : Nat} {node : Node} (notDir : node.type ≠ T_DIR) :
    EntriesSound g i node := fun isDir => absurd isDir notDir

/-- In the middle of `writei`: inode `n` stands for `node`, the file has its blocks
up to byte `upto`, and at most `k` blocks were taken. -/
structure Writing (base : Set Nat) (n k : Nat) (world : FsWorld) (g : Ghost) (node : Node)
    (upto : Nat) (after : FsWorld) (g' : Ghost) : Prop where
  sound : Sound base after g'
  sb : g'.sb = g.sb
  held : g'.held = g.held
  pinned : g'.pinned = g.pinned
  aligned : g'.aligned = g.aligned
  only : OnlyDirty g' n
  owns : g'.Owns n
  credit : g.credit ≤ g'.credit + k
  taken : k = 0 → g'.dirty = g.dirty ∧ g'.tag = g.tag
  settled : ∀ b, g'.tag b = .loose → g.tag b = .loose
  slots : SameSlots world.mem after.mem
  files : g'.files after.disk = Function.update (g.files world.disk) n (some node)
  full : ∀ bn, bn * BSIZE < upto → (g'.view n).blockAt after.disk (posOf bn) ≠ 0

section Writing

variable {base : Set Nat} {world after : FsWorld} {g g' : Ghost} {n k upto : Nat} {node : Node}
  {ip : Slot} {P : Disk → Prop} {F : Stop → FsWorld → Prop}

theorem Writing.node_eq (writing : Writing base n k world g node upto after g') :
    (g'.view n).node after.disk = node := by
  have found := congrFun writing.files n
  rw [writing.owns.files, Function.update_self] at found
  exact Option.some.inj found

theorem Writing.mono {m : Nat} (writing : Writing base n k world g node upto after g')
    (more : k ≤ m) : Writing base n m world g node upto after g' :=
  { writing with
    credit := Nat.le_trans writing.credit (Nat.add_le_add_left more _)
    taken := fun none => writing.taken (by omega) }

/-- `bmap` keeps the file. -/
theorem Writing.grow {middle : FsWorld} {g'' : Ghost} {p : Pos} {b : Nat}
    (writing : Writing base n k world g node upto after g')
    (maps : Maps base n 3 p after g' b middle g'') :
    Writing base n (k + 3) world g node upto middle g'' where
  sound := maps.sound
  sb := maps.grows.sb.trans writing.sb
  held := maps.grows.held.trans writing.held
  pinned := maps.grows.pinned.trans writing.pinned
  aligned := maps.grows.aligned.trans writing.aligned
  only := maps.grows.only writing.only
  owns := (maps.grows.owns n).mpr writing.owns
  credit := by
    have first := writing.credit
    have second := maps.grows.credit
    omega
  taken none := by omega
  settled b loose := writing.settled b (maps.settled b loose)
  slots := writing.slots.trans maps.grows.slots
  files := by
    have attached : g'.detached = none := by
      cases detached : g'.detached with
      | none => rfl
      | some i =>
          have same := writing.only.detached i detached
          exact absurd (same ▸ detached) writing.owns.attached
    rw [maps.grows.files attached, writing.files]
  full m inside := by
    have present := writing.full m inside
    have valid := (isData_posOf (posOf_valid_of_ne_zero present)).1
    rw [maps.grows.keeps _ valid present]
    exact present

/-- The bytes of a block are replaced. -/
theorem Writing.write {off m : Nat} (src : Nat → Byte)
    (writing : Writing base n k world g node upto after g') (below : off ≤ upto)
    (fits : off % BSIZE + m ≤ BSIZE)
    (present : (g'.view n).blockAt after.disk (posOf (off / BSIZE)) ≠ 0)
    (entries : EntriesSound g n { node with bytes := overwrite node.bytes off m src }) :
    Writing base n k world g { node with bytes := overwrite node.bytes off m src }
      (max upto (off + m))
      (writeDisk after ((g'.view n).blockAt after.disk (posOf (off / BSIZE)))
        ((after.disk ((g'.view n).blockAt after.disk (posOf (off / BSIZE)))).splice
          (off % BSIZE) m src)) g' := by
  have blocks := writing.sound.blocks
  have owns := writing.owns
  have nodeEq := writing.node_eq
  have contentEq : content (writeData g' after.disk n (off / BSIZE)
      ((after.disk ((g'.view n).blockAt after.disk (posOf (off / BSIZE)))).splice
        (off % BSIZE) m src)) (g'.view n) = overwrite node.bytes off m src := by
    rw [content_writeData blocks owns present, ← nodeEq, node_bytes]
    funext i
    unfold overwrite
    by_cases same : i / BSIZE = off / BSIZE
    · have place := Nat.div_add_mod i BSIZE
      have start := Nat.div_add_mod off BSIZE
      have small : i % BSIZE < BSIZE := Nat.mod_lt _ (by decide)
      rw [if_pos same, Buffer.get_splice, content, same, if_neg present]
      rw [same] at place
      simp only [BSIZE] at place start small fits ⊢
      by_cases inside : off ≤ i ∧ i < off + m
      · rw [if_pos (by omega), if_pos inside]
        exact congrArg src (by omega)
      · rw [if_neg (by omega), if_neg inside]
    · have place := Nat.div_add_mod i BSIZE
      rw [if_neg same, if_neg]
      rintro ⟨lower, upper⟩
      obtain ⟨near, -⟩ := div_mod_near off (i - off) (by omega)
      rw [Nat.add_sub_cancel' lower] at near
      exact same near
  have newNode : (g'.view n).node (writeData g' after.disk n (off / BSIZE)
      ((after.disk ((g'.view n).blockAt after.disk (posOf (off / BSIZE)))).splice
        (off % BSIZE) m src)) = { node with bytes := overwrite node.bytes off m src } := by
    unfold Dinode.node
    rw [contentEq, ← nodeEq]
    rfl
  refine
    { writing with
      sound := writing.sound.write_data owns present _ ?_
      files := ?_
      full := fun bn inside => ?_ }
  · rw [newNode]
    exact entries.congr writing.sb writing.pinned writing.aligned
  · funext i
    by_cases same : i = n
    · subst same
      rw [Function.update_self, owns.files]
      exact congrArg some newNode
    · have before := congrFun writing.files i
      rw [Function.update_of_ne same] at before ⊢
      rw [← before]
      refine Ghost.files_congr rfl rfl fun inRange allocated => ?_
      have attached : g'.detached ≠ some i := fun detached =>
        same (writing.only.detached i detached)
      exact node_same blocks ⟨inRange, allocated, attached⟩
        (sameBlocks_writeData blocks owns present _ same)
  · change (g'.view n).blockAt (writeData g' after.disk n (off / BSIZE) _) (posOf bn) ≠ 0
    rw [blockAt_posOf_writeData blocks owns present _ owns]
    by_cases before : bn * BSIZE < upto
    · exact writing.full bn before
    · have same : bn = off / BSIZE := by
        have start := Nat.div_add_mod off BSIZE
        simp only [BSIZE] at *
        omega
      rw [same]
      exact present

/-- The number of blocks that a range of bytes touches, at most. -/
def blocksFor (off len : Nat) : Nat := (off % BSIZE + len + (BSIZE - 1)) / BSIZE

variable (safe : ∀ world g, Sound base world g → P world.disk) (caches : Caches world ip n)

include safe caches

/-- One `bmap` of `writei`.  It costs nothing where the file has its blocks. -/
theorem Writing.bmap_spec {c off : Nat}
    (writing : Writing base n k world g node upto after g')
    (full : g.credit < k + c → ∀ world g, Sound base world g → g.freeBlocks = 0 →
      F .ballocOutOfBlocks world)
    (cost : c = 3 ∨ c = 0 ∧ off < upto) (within : off < MAXFILE * BSIZE) :
    (bmap ip (off / BSIZE)).wp P F
      (fun b middle => ∃ g'', Writing base n (k + c) world g node upto middle g'' ∧
        (g''.view n).blockAt middle.disk (posOf (off / BSIZE)) = b ∧ b ≠ 0) after := by
  have cachesStill := caches.same writing.slots
  rcases cost with rfl | ⟨rfl, inside⟩
  · have spent := writing.credit
    have small : off / BSIZE < MAXFILE := by
      simp only [MAXFILE, NDINDIRECT, NDIRECT, NINDIRECT, BSIZE] at *
      omega
    refine (Fs.bmap_spec safe (fun low => full (by omega)) writing.sound cachesStill writing.only
      writing.owns small).mono ?_
    rintro b middle ⟨g'', maps⟩
    exact ⟨g'', writing.grow maps, maps.at_p, maps.present⟩
  · have blockStart : off / BSIZE * BSIZE < upto := by
      simp only [BSIZE]
      omega
    have present := writing.full _ blockStart
    exact bmap_present writing.sound cachesStill present ⟨g', writing, rfl, present⟩

omit safe caches in
theorem Writing.nothing {src : Nat → Byte} {c tot off rest : Nat}
    (writing : Writing base n k world g node upto after g') (done : rest = 0)
    (below : off ≤ upto) :
    Writing base n (k + c * blocksFor off rest) world g
      { node with bytes := overwrite node.bytes off rest fun i => src (tot + i) }
      (max upto (off + rest)) after g' := by
  subst done
  rw [overwrite_zero, Nat.add_zero, Nat.max_eq_left below]
  exact writing.mono (Nat.le_add_right _ _)

omit safe caches in
theorem writeiLoop_zero (src : Nat → Byte) (fuel tot off : Nat) :
    writeiLoop ip src fuel tot off 0 = pure () := by
  cases fuel <;> rfl

/-- The loop of `writei` overwrites the bytes. -/
theorem writeiLoop_spec {src : Nat → Byte} {c fuel tot off rest : Nat}
    (writing : Writing base n k world g node upto after g')
    (full : g.credit < k + c * blocksFor off rest →
      ∀ world g, Sound base world g → g.freeBlocks = 0 → F .ballocOutOfBlocks world)
    (enough : rest ≤ fuel) (below : off ≤ upto) (within : off + rest ≤ MAXFILE * BSIZE)
    (cost : c = 3 ∨ c = 0 ∧ off + rest ≤ upto)
    (entries : ∀ m, 0 < m → m ≤ rest → m = rest ∨ (off + m) % BSIZE = 0 →
      EntriesSound g n
        { node with bytes := overwrite node.bytes off m fun i => src (tot + i) }) :
    (writeiLoop ip src fuel tot off rest).wp P F
      (fun _ final => ∃ g'', Writing base n (k + c * blocksFor off rest) world g
        { node with bytes := overwrite node.bytes off rest fun i => src (tot + i) }
        (max upto (off + rest)) final g'') after := by
  induction fuel generalizing k tot off rest upto node after g' with
  | zero => exact ⟨g', writing.nothing (by omega) below⟩
  | succ fuel ih =>
      unfold writeiLoop
      split
      · next done => exact ⟨g', writing.nothing done below⟩
      · next more =>
        have blocks : 1 ≤ blocksFor off rest := by
          simp only [blocksFor, BSIZE]
          omega
        have first : c ≤ c * blocksFor off rest := Nat.le_mul_of_pos_right c blocks
        simp only [Prog.wp_bind]
        refine (writing.bmap_spec safe caches (fun low => full (by omega))
          (cost.imp_right fun inside => ⟨inside.1, by omega⟩) (by omega)).mono ?_
        rintro _ middle ⟨g'', grown, rfl, present⟩
        simp only [Prog.wp_bread, Prog.wp_data, Prog.wp_logWrite, brelse, Prog.wp_pure]
        intro slot
        -- `m` bytes go into this block, and the next round starts at a block boundary
        obtain ⟨m, chunk⟩ : ∃ m, m = min rest (BSIZE - off % BSIZE) := ⟨_, rfl⟩
        rw [← chunk]
        have inBlock : off % BSIZE < BSIZE := Nat.mod_lt _ (by decide)
        have boundary : m = rest ∨ (off + m) % BSIZE = 0 := by
          simp only [BSIZE] at *
          omega
        have written := grown.write (fun i => src (tot + i)) below
          (show off % BSIZE + m ≤ BSIZE by omega) present
          (entries m (by omega) (by omega) boundary)
        refine ⟨safe _ _ written.sound, ?_⟩
        have combine : ∀ j, overwrite (overwrite node.bytes off m fun i => src (tot + i))
            (off + m) j (fun i => src (tot + m + i)) =
              overwrite node.bytes off (m + j) fun i => src (tot + i) := by
          intro j
          rw [← overwrite_overwrite]
          simp only [Nat.add_assoc]
        have total : m + (rest - m) = rest := by omega
        have budget : k + c + c * blocksFor (off + m) (rest - m) ≤ k + c * blocksFor off rest ∨
            rest - m = 0 := by
          rcases boundary with all | aligned
          · exact Or.inr (by omega)
          · left
            have fewer : blocksFor (off + m) (rest - m) + 1 ≤ blocksFor off rest := by
              simp only [blocksFor, BSIZE] at *
              omega
            have scaled := Nat.mul_le_mul_left c fewer
            rw [Nat.mul_add, Nat.mul_one] at scaled
            omega
        have upper : max (max upto (off + m)) (off + m + (rest - m)) = max upto (off + rest) := by
          omega
        rcases budget with budget | done
        · refine (ih written (fun low => full (by omega)) (by omega) (by omega) (by omega)
            (cost.imp_right fun inside => ⟨inside.1, by omega⟩)
            fun j positive small last => ?_).mono ?_
          · simp only [combine]
            refine entries (m + j) (by omega) (by omega) ?_
            rcases last with all | aligned
            · exact Or.inl (by omega)
            · exact Or.inr (by rwa [← Nat.add_assoc])
          · rintro _ final ⟨last, done⟩
            simp only [combine, total, upper] at done
            exact ⟨last, done.mono budget⟩
        · have all : m = rest := by omega
          rw [done, writeiLoop_zero]
          subst all
          exact ⟨g'', written.mono (Nat.add_le_add_left first k)⟩

omit safe caches in
/-- Before the first block is written. -/
theorem Writing.start (sound : Sound base world g) (idle : g.Idle) (owns : g.Owns n) :
    Writing base n 0 world g ((g.view n).node world.disk) (g.view n).size.toNat world g where
  sound := sound
  sb := rfl
  held := rfl
  pinned := rfl
  aligned := rfl
  only := idle.only n
  owns := owns
  credit := Nat.le_refl _
  taken _ := ⟨rfl, rfl⟩
  settled _ := id
  slots := SameSlots.refl _
  files := by rw [← owns.files, Function.update_eq_self]
  full := (sound.files n owns).full

/-- The number of blocks that `writei` may take: none inside the file. -/
def writeCost (node : Node) (off len : Nat) : Nat :=
  if off + len ≤ node.size.toNat then 0 else 3 * blocksFor off len

/-- The bytes that `writei` has put into a directory by the end of a block are whole
entries. -/
def WholeEntries (g : Ghost) (n : Nat) (node : Node) (src : Nat → Byte) (off len : Nat) : Prop :=
  ∀ m, 0 < m → m ≤ len → m = len ∨ (off + m) % BSIZE = 0 →
    EntriesSound g n { node with bytes := overwrite node.bytes off m src }

omit safe caches in
/-- A write inside the file is done after its last block. -/
theorem Writing.moves {node : Node} (writing : Writing base n 0 world g node upto after g')
    (idle : g.Idle) (floor : Slot → Int) :
    Moves base floor 0 world g (Function.update (g.files world.disk) n (some node)) g.held
      after g' where
  sound := writing.sound
  sb := writing.sb
  aligned := writing.aligned
  credit := writing.credit
  taken none b := Or.inl (congrFun (writing.taken none).2 b)
  settled := writing.settled
  idle := by
    refine ⟨(writing.taken rfl).1.trans idle.dirty, ?_⟩
    cases detached : g'.detached with
    | none => rfl
    | some i =>
        have same := writing.only.detached i detached
        exact absurd (same ▸ detached) writing.owns.attached
  keeps := writing.slots.keeps floor
  refs := congrArg₂ (· - ·) writing.slots.refs writing.held
  files := writing.files
  held := writing.held
  pinned := writing.pinned

omit caches in
/-- The last steps of a write that makes the file longer. -/
theorem Writing.grow_spec {size : BitVec 32} (caches : Caches after ip n)
    (writing : Writing base n k world g node upto after g') (positive : k ≠ 0)
    (small : size.toNat ≤ MAXFILE * BSIZE) (below : size.toNat ≤ upto)
    (entries : EntriesSound g n { node with size }) :
    (iupdate ip).wp P F
      (fun _ final => ∃ g'', Caches final ip n ∧ ∀ floor, Moves base floor k world g
        (Function.update (g.files world.disk) n (some { node with size })) g.held final g'')
      { after with mem := after.mem.setInode ip (·.mapDin ({ · with size })) } := by
  have nodeEq : (({ g'.view n with size } : Dinode).node after.disk) = { node with size } := by
    rw [← writing.node_eq]
    rfl
  have file : FileSound after.disk (g'.put n { g'.view n with size }) n := by
    refine ⟨?_, fun bn inside => ?_, ?_⟩
    · rw [put_view_self]
      exact small
    · rw [put_view_self] at inside ⊢
      exact writing.full bn (Nat.lt_of_lt_of_le inside below)
    · rw [put_view_self, nodeEq]
      exact entries.congr writing.sb writing.pinned writing.aligned
  refine (setFields_spec safe writing.sound writing.only caches writing.owns rfl
    writing.owns.allocated file).mono ?_
  rintro _ final ⟨g'', cached, moves⟩
  refine ⟨g'', cached, fun floor => ?_⟩
  have stored := moves floor
  rw [writing.files, Function.update_idem, nodeEq] at stored
  exact
    { sound := stored.sound
      sb := stored.sb.trans writing.sb
      aligned := stored.aligned.trans writing.aligned
      credit := by
        have first := writing.credit
        have second := stored.credit
        omega
      taken := fun none => absurd none positive
      settled := fun b loose => writing.settled b (stored.settled b loose)
      idle := stored.idle
      keeps := (writing.slots.keeps floor).trans stored.keeps
      refs := stored.refs.trans (congrArg₂ (· - ·) writing.slots.refs writing.held)
      files := stored.files
      held := stored.held.trans writing.held
      pinned := stored.pinned.trans writing.pinned }

/-- `writei` does to the file what `Node.write` says. -/
theorem writei_spec {src : Nat → Byte} {off len : Nat} (small : len < 2 ^ 32)
    (sound : Sound base world g) (idle : g.Idle) (owns : g.Owns n)
    (full : g.credit < writeCost ((g.view n).node world.disk) off len →
      ∀ world g, Sound base world g → g.freeBlocks = 0 → F .ballocOutOfBlocks world)
    (entries : WholeEntries g n ((g.view n).node world.disk) src off len)
    (grown : EntriesSound g n (((g.view n).node world.disk).write src off len).2) :
    (writei ip src off len).wp P F
      (fun r after => r = (((g.view n).node world.disk).write src off len).1 ∧
        ∃ g', Caches after ip n ∧ ∀ floor,
          Moves base floor (writeCost ((g.view n).node world.disk) off len) world g
            (Function.update (g.files world.disk) n
              (some (((g.view n).node world.disk).write src off len).2)) g.held after g')
      world := by
  have nothing : ∃ g', Caches world ip n ∧ ∀ floor,
      Moves base floor (writeCost ((g.view n).node world.disk) off len) world g
        (Function.update (g.files world.disk) n (some ((g.view n).node world.disk)))
        g.held world g' := by
    refine ⟨g, caches, fun floor => ?_⟩
    have still := (Moves.refl sound idle floor).mono le_rfl
      (Nat.zero_le (writeCost ((g.view n).node world.disk) off len))
    rwa [← owns.files, Function.update_eq_self]
  have din := caches.din sound
  have size : ((g.view n).node world.disk).size = (g.view n).size := rfl
  unfold writei getInode
  simp only [Prog.wp_bind, Prog.wp_getMem, Prog.wp_pure, din]
  unfold Node.write at grown ⊢
  split
  · next device =>
    rw [if_pos (show ((g.view n).node world.disk).type = T_DEV from device)]
    by_cases handlers : devswSet (g.view n).major = true
    · rw [if_pos handlers,
        if_pos (show devswSet ((g.view n).node world.disk).major = true from handlers)]
      exact ⟨rfl, nothing⟩
    · rw [if_neg handlers,
        if_neg (show ¬ devswSet ((g.view n).node world.disk).major = true from handlers)]
      exact ⟨rfl, nothing⟩
  · next notDevice =>
    rw [if_neg (show ¬ ((g.view n).node world.disk).type = T_DEV from notDevice), size] at grown ⊢
    split
    · next outside => exact ⟨rfl, nothing⟩
    · next valid =>
      rw [if_neg valid] at grown
      obtain ⟨below, forward⟩ := not_or.mp valid
      have offSmall : off < 2 ^ 32 := Nat.lt_of_le_of_lt (Nat.not_lt.mp below) (g.view n).size.isLt
      rw [no_wrap offSmall small forward]
      split
      · next long => exact ⟨rfl, nothing⟩
      · next fits =>
        rw [if_neg fits] at grown
        have offBelow : off ≤ (g.view n).size.toNat := Nat.not_lt.mp below
        have within : off + len ≤ MAXFILE * BSIZE := Nat.not_lt.mp fits
        have chunks : ∀ m, 0 < m → m ≤ len → m = len ∨ (off + m) % BSIZE = 0 →
            EntriesSound g n { (g.view n).node world.disk with
              bytes := overwrite ((g.view n).node world.disk).bytes off m
                fun i => src (0 + i) } := by
          simp only [Nat.zero_add]
          exact entries
        have start := Writing.start sound idle owns
        unfold writeCost at full ⊢
        rw [size] at full ⊢
        simp only [Prog.wp_bind, Prog.wp_getMem, Prog.wp_pure]
        by_cases inside : off + len ≤ (g.view n).size.toNat
        · rw [if_pos inside] at full ⊢
          rw [if_neg (by omega)]
          refine (writeiLoop_spec safe caches start (fun low => full (by omega)) (Nat.le_refl _)
            offBelow within (Or.inr ⟨rfl, inside⟩) chunks).mono ?_
          rintro _ after ⟨g', writing⟩
          simp only [Nat.zero_add, Nat.zero_mul] at writing
          have cachesStill := caches.same writing.slots
          have sizeEq : (after.mem.icache ip).din.size = (g.view n).size := by
            rw [cachesStill.din writing.sound]
            exact congrArg Node.size writing.node_eq
          unfold when
          rw [sizeEq, if_neg (by omega)]
          exact ⟨trivial, g', cachesStill, fun floor => writing.moves idle floor⟩
        · rw [if_neg inside] at full ⊢
          rw [if_pos (by omega)] at grown ⊢
          refine (writeiLoop_spec safe caches start (fun low => full (by omega)) (Nat.le_refl _)
            offBelow within (Or.inl rfl) chunks).mono ?_
          rintro _ after ⟨g', writing⟩
          simp only [Nat.zero_add] at writing
          have cachesStill := caches.same writing.slots
          have sizeEq : (after.mem.icache ip).din.size = (g.view n).size := by
            rw [cachesStill.din writing.sound]
            exact congrArg Node.size writing.node_eq
          have newSize : (BitVec.ofNat 32 (off + len)).toNat = off + len := by
            rw [BitVec.toNat_ofNat, Nat.mod_eq_of_lt]
            exact Nat.lt_of_le_of_lt within (by decide)
          have blocks : 1 ≤ blocksFor off len := by
            simp only [blocksFor, BSIZE]
            omega
          unfold when
          rw [sizeEq, if_pos ⟨by omega, by omega⟩]
          simp only [Prog.wp_bind, modifyInode, Prog.wp_modifyMem]
          refine (writing.grow_spec safe cachesStill (by omega) (by rw [newSize]; exact within)
            (by rw [newSize]; omega) grown).mono ?_
          rintro _ final ⟨g'', cached, moves⟩
          exact ⟨trivial, g'', cached, moves⟩

end Writing

end Notux.Fs
