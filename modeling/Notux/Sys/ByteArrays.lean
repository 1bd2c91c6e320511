import Notux.Sys.Modes

/-!
# Files are arrays of bytes

Reading, writing and truncating act on the content of one file as on a list of bytes, and on
no other file.  The blocks that a file keeps after it was truncated are never read back:
what a later write does not cover is not part of the file.
-/

namespace Notux.Sys

open Notux.Store Notux.Proc Notux.Fs

/-! ## Lists of bytes -/

/-- The bytes from `off` on replaced by new ones, at the end by more if need be. -/
def splice (bytes : List Byte) (off : Nat) (new : List Byte) : List Byte :=
  bytes.take off ++ new ++ bytes.drop (off + new.length)

theorem take_contentOf (node : Node) {off : Nat} (inside : off ≤ node.size.toNat) :
    (contentOf node).take off = node.slice 0 off := by
  have split := slice_append node 0 off (node.size.toNat - off)
  have whole : off + (node.size.toNat - off) = node.size.toNat := by omega
  rw [whole] at split
  unfold contentOf
  rw [← split]
  exact List.take_left' (by simp [Node.slice])

theorem drop_contentOf (node : Node) {off : Nat} (inside : off ≤ node.size.toNat) :
    (contentOf node).drop off = node.slice off (node.size.toNat - off) := by
  have split := slice_append node 0 off (node.size.toNat - off)
  have whole : off + (node.size.toNat - off) = node.size.toNat := by omega
  rw [whole, Nat.zero_add] at split
  unfold contentOf
  rw [← split]
  exact List.drop_left' (by simp [Node.slice])

/-- A range of the bytes of a file. -/
theorem slice_contentOf (node : Node) {off n : Nat} (inside : off + n ≤ node.size.toNat) :
    ((contentOf node).drop off).take n = node.slice off n := by
  rw [drop_contentOf node (by omega)]
  have split := slice_append node off n (node.size.toNat - (off + n))
  have whole : n + (node.size.toNat - (off + n)) = node.size.toNat - off := by omega
  rw [whole] at split
  rw [← split]
  exact List.take_left' (by simp [Node.slice])

theorem slice_congr {node node' : Node} {off n : Nat}
    (same : ∀ i < n, node'.bytes (off + i) = node.bytes (off + i)) :
    node'.slice off n = node.slice off n := by
  unfold Node.slice
  apply List.map_congr_left
  intro i member
  exact same i (List.mem_range.mp member)

/-- Overwriting bytes of a file splices its content. -/
theorem contentOf_overwrite (node : Node) (src : Nat → Byte) {off n : Nat}
    (inside : off ≤ node.size.toNat) {size : BitVec 32}
    (grown : size.toNat = max node.size.toNat (off + n)) :
    contentOf { node with bytes := overwrite node.bytes off n src, size } =
      splice (contentOf node) off ((List.range n).map src) := by
  have first := slice_append { node with bytes := overwrite node.bytes off n src, size } 0 off n
  have second := slice_append { node with bytes := overwrite node.bytes off n src, size } 0
    (off + n) (size.toNat - (off + n))
  have whole : off + n + (size.toNat - (off + n)) = size.toNat := by omega
  rw [← first, whole, Nat.zero_add, Nat.zero_add] at second
  have before : Node.slice { node with bytes := overwrite node.bytes off n src, size } 0 off =
      node.slice 0 off := by
    apply slice_congr
    intro i less
    exact if_neg (by omega)
  have middle : Node.slice { node with bytes := overwrite node.bytes off n src, size } off n =
      (List.range n).map src := by
    unfold Node.slice
    apply List.map_congr_left
    intro i member
    have less := List.mem_range.mp member
    refine (if_pos (by omega)).trans ?_
    rw [Nat.add_sub_cancel_left]
  have after : Node.slice { node with bytes := overwrite node.bytes off n src, size } (off + n)
      (size.toNat - (off + n)) = (contentOf node).drop (off + n) := by
    by_cases longer : off + n ≤ node.size.toNat
    · have same : size.toNat = node.size.toNat := by omega
      rw [drop_contentOf node longer, same]
      apply slice_congr
      intro i _
      exact if_neg (by omega)
    · have none : size.toNat - (off + n) = 0 := by omega
      rw [none, List.drop_of_length_le (by rw [length_contentOf]; omega)]
      rfl
  unfold splice
  rw [List.length_map, List.length_range, take_contentOf node inside, ← before, ← middle, ← after]
  exact second.symm

/-! ## Requests -/

/-- A request on an inode: `writei`, `readi` or the size reset of `O_TRUNC`. -/
inductive Request where
  | write (ip : Slot) (src : Nat → Byte) (off n : BitVec 32)
  | read (ip : Slot) (off n : BitVec 32)
  | truncate (ip : Slot)

/-- The inode of a request. -/
def Request.ip : Request → Slot
  | .write ip .. | .read ip .. | .truncate ip => ip

/-- What a request returns, and the bytes it delivers. -/
abbrev Reply := Int × List Byte

/-- The program of a request. -/
def Request.program : Request → FsM Reply
  | .write ip src off n => do
      let r ← writei ip src off.toNat n.toNat
      return (r, [])
  | .read ip off n => readi ip off.toNat n.toNat
  | .truncate ip => do
      Sys.truncate ip
      return (0, [])

/-- One request after the other. -/
def serveAll : List Request → FsM (List Reply)
  | [] => return []
  | request :: rest => do
      let reply ← request.program
      let replies ← serveAll rest
      return reply :: replies

/-! ## Requests on lists of bytes -/

/-- What a request returns for a file with the given bytes, and the bytes after it. -/
def Request.serve (bytes : List Byte) : Request → Reply × List Byte
  | .write _ src off n =>
      if bytes.length < off.toNat ∨ 2 ^ 32 ≤ off.toNat + n.toNat ∨
          MAXFILE * BSIZE < off.toNat + n.toNat then ((-1, []), bytes)
      else ((n.toNat, []), splice bytes off.toNat ((List.range n.toNat).map src))
  | .read _ off n =>
      if bytes.length < off.toNat ∨ 2 ^ 32 ≤ off.toNat + n.toNat then ((-1, []), bytes)
      else (((min n.toNat (bytes.length - off.toNat) : Nat), (bytes.drop off.toNat).take n.toNat),
        bytes)
  | .truncate _ => ((0, []), [])

/-- The contents of the files by inode number. -/
abbrev Contents := Nat → Option (List Byte)

/-- A request for one of several files. -/
def Request.step (inum : Slot → Nat) (contents : Contents) (request : Request) :
    Reply × Contents :=
  match contents (inum request.ip) with
  | none => ((-1, []), contents)
  | some bytes => ((request.serve bytes).1,
      Function.update contents (inum request.ip) (some (request.serve bytes).2))

/-- Several requests, one after the other. -/
def replay (inum : Slot → Nat) : Contents → List Request → List Reply × Contents
  | contents, [] => ([], contents)
  | contents, request :: rest =>
      let (reply, next) := request.step inum contents
      let (replies, last) := replay inum next rest
      (reply :: replies, last)

/-- The blocks that a request may take, at most. -/
def Request.cost (bytes : List Byte) : Request → Nat
  | .write _ _ off n =>
      if off.toNat + n.toNat ≤ bytes.length then 0 else 3 * blocksFor off.toNat n.toNat
  | _ => 0

/-- A request that has to leave everything as it was: a read, or a write that is refused. -/
def Request.LeavesAlone (reply : Reply) : Request → Prop
  | .write .. => reply.1 = -1
  | .read .. => True
  | .truncate _ => False

/-! ## Requests on files -/

section Nodes

variable {node : Node} (regular : node.type = T_FILE) (ip : Slot) (off n : BitVec 32)

/-- The range of a request begins behind the file, or its end does not fit into 32 bits. -/
theorem outside_iff {size : Nat} {off n : BitVec 32} :
    off.toNat > size ∨ (off.toNat + n.toNat) % 2 ^ 32 < off.toNat ↔
      size < off.toNat ∨ 2 ^ 32 ≤ off.toNat + n.toNat := by
  have offSmall := off.isLt
  have small := n.isLt
  apply or_congr_right
  constructor
  · intro wrapped
    by_contra fits
    rw [Nat.mod_eq_of_lt (by omega)] at wrapped
    omega
  · intro long
    by_contra forward
    have whole := no_wrap offSmall small forward
    have less := Nat.mod_lt (off.toNat + n.toNat) (show 0 < 2 ^ 32 by decide)
    omega

include regular

theorem write_serve (small : node.size.toNat ≤ MAXFILE * BSIZE) (src : Nat → Byte) :
    (((node.write src off.toNat n.toNat).1, []), contentOf (node.write src off.toNat n.toNat).2) =
        (Request.write ip src off n).serve (contentOf node) ∧
      (node.write src off.toNat n.toNat).2.type = T_FILE := by
  have bound : MAXFILE * BSIZE < 2 ^ 31 := by decide
  unfold Node.write Request.serve
  dsimp only
  rw [if_neg (show ¬ node.type = T_DEV by rw [regular]; decide), length_contentOf]
  by_cases outside : node.size.toNat < off.toNat ∨ 2 ^ 32 ≤ off.toNat + n.toNat
  · have refused : node.size.toNat < off.toNat ∨ 2 ^ 32 ≤ off.toNat + n.toNat ∨
        MAXFILE * BSIZE < off.toNat + n.toNat := outside.imp_right Or.inl
    rw [if_pos (outside_iff.mpr outside), if_pos refused]
    exact ⟨rfl, regular⟩
  · obtain ⟨inside, narrow⟩ := not_or.mp outside
    rw [if_neg (mt outside_iff.mp outside)]
    by_cases long : off.toNat + n.toNat > MAXFILE * BSIZE
    · have refused : node.size.toNat < off.toNat ∨ 2 ^ 32 ≤ off.toNat + n.toNat ∨
          MAXFILE * BSIZE < off.toNat + n.toNat := Or.inr (Or.inr long)
      rw [if_pos long, if_pos refused]
      exact ⟨rfl, regular⟩
    · have accepted : ¬ (node.size.toNat < off.toNat ∨ 2 ^ 32 ≤ off.toNat + n.toNat ∨
          MAXFILE * BSIZE < off.toNat + n.toNat) := by
        rintro (beyond | wide | tooLong)
        · exact inside beyond
        · exact narrow wide
        · exact long tooLong
      rw [if_neg long, if_neg accepted, toInt32_eq (by omega)]
      dsimp only
      rw [contentOf_overwrite node src (by omega)]
      · exact ⟨rfl, regular⟩
      · split
        · rw [BitVec.toNat_ofNat, Nat.mod_eq_of_lt (by omega)]
          omega
        · omega

theorem read_serve (small : node.size.toNat ≤ MAXFILE * BSIZE) :
    (node.read off.toNat n.toNat, contentOf node) =
      (Request.read ip off n).serve (contentOf node) := by
  have bound : MAXFILE * BSIZE < 2 ^ 31 := by decide
  unfold Node.read Request.serve
  dsimp only
  rw [if_neg (show ¬ node.type = T_DEV by rw [regular]; decide), length_contentOf]
  by_cases outside : node.size.toNat < off.toNat ∨ 2 ^ 32 ≤ off.toNat + n.toNat
  · rw [if_pos (outside_iff.mpr outside), if_pos outside]
  · obtain ⟨inside, narrow⟩ := not_or.mp outside
    rw [if_neg (mt outside_iff.mp outside), if_neg outside]
    by_cases long : off.toNat + n.toNat > node.size.toNat
    · have all : (contentOf node).drop off.toNat =
          node.slice off.toNat (node.size.toNat - off.toNat) := drop_contentOf node (by omega)
      rw [if_pos long, toInt32_eq (by omega), Nat.min_eq_right (by omega), all,
        List.take_of_length_le (by simp only [Node.slice, List.length_map, List.length_range]; omega)]
    · rw [if_neg long, toInt32_eq (by omega), Nat.min_eq_left (by omega),
        slice_contentOf node (by omega)]

end Nodes

/-! ## Requests on inodes -/

/-- A referenced inode that has been read from disk and is a regular file. -/
structure OnFile (world : FsWorld) (ip : Slot) : Prop where
  inUse : 0 < (world.mem.icache ip).ref
  valid : (world.mem.icache ip).valid = true
  regular : (world.mem.icache ip).din.type = T_FILE

/-- The number of the inode in each entry of the inode table. -/
def inums (world : FsWorld) (ip : Slot) : Nat := (world.mem.icache ip).inum

/-- The contents of the files on the disk. -/
def contents (world : FsWorld) : Contents := fun i => (filesOn world i).map contentOf

/-- The number of blocks that the bitmap shows free. -/
def freeOn (world : FsWorld) : Nat :=
  ((Finset.range world.mem.sb.size).filter fun b =>
    marked world.mem.sb world.disk b = false).card

section Inodes

variable {world : FsWorld} {g : Ghost}

theorem OnFile.caches {ip : Slot} (onFile : OnFile world ip) :
    Caches world ip (inums world ip) :=
  ⟨onFile.inUse, onFile.valid, rfl⟩

theorem freeOn_eq (sound : Sound ∅ world g) : freeOn world = g.freeBlocks := by
  unfold freeOn Ghost.freeBlocks
  rw [sound.sameSb]
  congr 1
  apply Finset.filter_congr
  intro b member
  have marks := sound.blocks.marks b (Finset.mem_range.mp member)
  rw [← Bool.not_eq_true, marks, not_not]

/-- All free blocks can be counted on. -/
def credited (g : Ghost) : Ghost := { g with credit := g.freeBlocks }

theorem credited_idle (idle : g.Idle) : (credited g).Idle := ⟨idle.dirty, idle.detached⟩

theorem credited_owns {i : Nat} (owns : g.Owns i) : (credited g).Owns i :=
  ⟨owns.inRange, owns.allocated, owns.attached⟩

theorem sound_credited (sound : Sound ∅ world g) : Sound ∅ world (credited g) where
  laid := sound.laid
  sameSb := sound.sameSb
  mounted := sound.mounted
  cache := ⟨sound.cache.unique, sound.cache.inRange, sound.cache.cached, sound.cache.holds⟩
  store := ⟨sound.store.lags, sound.store.clean⟩
  blocks := ⟨sound.blocks.marks, sound.blocks.metadata, sound.blocks.inside,
    fun i p owns => sound.blocks.points i p ⟨owns.inRange, owns.allocated, owns.attached⟩,
    fun b i p tag attached =>
      have owned := sound.blocks.owned b i p tag attached
      ⟨⟨owned.1.inRange, owned.1.allocated, owned.1.attached⟩, owned.2⟩, le_rfl⟩
  files i owns :=
    have file := sound.files i ⟨owns.inRange, owns.allocated, owns.attached⟩
    ⟨file.small, file.full, file.entries⟩
  pinned i member :=
    have owns := sound.pinned i member
    ⟨owns.inRange, owns.allocated, owns.attached⟩
  base := sound.base

/-- The file behind an entry of the inode table. -/
def fileOf (world : FsWorld) (g : Ghost) (ip : Slot) : Node :=
  (g.view (inums world ip)).node world.disk

theorem OnFile.owns {ip : Slot} (onFile : OnFile world ip) (sound : Sound ∅ world g)
    (idle : g.Idle) : g.Owns (inums world ip) :=
  onFile.caches.owns sound (idle.attached _)

theorem OnFile.fileOf_type {ip : Slot} (onFile : OnFile world ip) (sound : Sound ∅ world g) :
    (fileOf world g ip).type = T_FILE := by
  have din := onFile.caches.din sound
  have regular := onFile.regular
  rw [din] at regular
  exact regular

theorem OnFile.small {ip : Slot} (onFile : OnFile world ip) (sound : Sound ∅ world g)
    (idle : g.Idle) : (fileOf world g ip).size.toNat ≤ MAXFILE * BSIZE :=
  (sound.files _ (onFile.owns sound idle)).small

theorem OnFile.contents {ip : Slot} (onFile : OnFile world ip) (sound : Sound ∅ world g)
    (idle : g.Idle) :
    Sys.contents world (inums world ip) = some (contentOf (fileOf world g ip)) := by
  unfold Sys.contents
  rw [← files_eq_filesOn sound idle, (onFile.owns sound idle).files]
  rfl

/-- A request stops for want of blocks, and only if it may need more than are free. -/
def Exhausted (world : FsWorld) (inum : Slot → Nat) (request : Request) (reason : Stop)
    (after : FsWorld) : Prop :=
  reason = .ballocOutOfBlocks ∧ freeOn after = 0 ∧
    ∃ bytes, contents world (inum request.ip) = some bytes ∧ freeOn world < request.cost bytes

/-- A request puts another regular file in the place of one. -/
structure Answers (world : FsWorld) (g : Ghost) (request : Request) (reply : Reply)
    (node : Node) (after : FsWorld) (g' : Ghost) : Prop where
  regular : node.type = T_FILE
  serve : (reply, contentOf node) = request.serve (contentOf (fileOf world g request.ip))
  alone : request.LeavesAlone reply → after = world
  moves : ∃ k, ∀ floor, Moves ∅ floor k world (credited g)
    (Function.update (g.files world.disk) (inums world request.ip) (some node)) g.held after g'

/-- What a request leaves. -/
structure Served (world : FsWorld) (request : Request) (reply : Reply) (after : FsWorld) :
    Prop where
  sound : ∃ g, Sound ∅ after g ∧ g.Idle
  step : (reply, contents after) = request.step (inums world) (contents world)
  alone : request.LeavesAlone reply → after = world
  keeps : ∀ ip, OnFile world ip → OnFile after ip ∧ inums after ip = inums world ip

section Answers

variable {request : Request} {reply : Reply} {node : Node} {after : FsWorld} {g' : Ghost}
  (sound : Sound ∅ world g) (idle : g.Idle) (onFile : OnFile world request.ip)
  (answers : Answers world g request reply node after g')

include sound idle onFile answers

omit onFile in
/-- Regular files stay regular files in their entries of the inode table. -/
theorem Answers.keeps {ip : Slot} (other : OnFile world ip) :
    OnFile after ip ∧ inums after ip = inums world ip := by
  obtain ⟨k, moves⟩ := answers.moves
  have moved := moves fun _ => 1
  have caches := other.caches.keep moved.keeps Int.one_pos
  have found : g'.files after.disk (inums world ip) =
      some ((g'.view (inums world ip)).node after.disk) :=
    (caches.owns moved.sound (moved.idle.attached _)).files
  rw [moved.files] at found
  refine ⟨⟨caches.inUse, caches.valid, ?_⟩, caches.inum⟩
  rw [caches.din moved.sound]
  by_cases same : inums world ip = inums world request.ip
  · rw [same, Function.update_self] at found
    have isNode := Option.some.inj found
    rw [same]
    exact (congrArg Node.type isNode).symm.trans answers.regular
  · rw [Function.update_of_ne same, (other.owns sound idle).files] at found
    exact (congrArg Node.type (Option.some.inj found)).symm.trans (other.fileOf_type sound)

theorem Answers.served : Served world request reply after := by
  obtain ⟨k, moves⟩ := answers.moves
  have moved := moves fun _ => 1
  have files : filesOn after =
      Function.update (filesOn world) (inums world request.ip) (some node) := by
    rw [← files_eq_filesOn moved.sound moved.idle, moved.files, files_eq_filesOn sound idle]
  constructor
  · exact ⟨g', moved.sound, moved.idle⟩
  · unfold Request.step
    rw [onFile.contents sound idle]
    dsimp only
    rw [← answers.serve]
    unfold Sys.contents
    rw [files]
    congr 1
    funext i
    by_cases same : i = inums world request.ip
    · rw [same, Function.update_self, Function.update_self]
      rfl
    · rw [Function.update_of_ne same, Function.update_of_ne same]
  · exact answers.alone
  · exact fun ip other => answers.keeps sound idle other

end Answers

section Requests

variable (sound : Sound ∅ world g) (idle : g.Idle)

include sound idle

omit idle in
/-- `writei` refuses a range that a file cannot have. -/
theorem writei_refused {ip : Slot} {off n : BitVec 32} {src : Nat → Byte}
    {F : Stop → FsWorld → Prop} (onFile : OnFile world ip)
    (refused : (fileOf world g ip).size.toNat < off.toNat ∨ 2 ^ 32 ≤ off.toNat + n.toNat ∨
      MAXFILE * BSIZE < off.toNat + n.toNat) :
    (writei ip src off.toNat n.toNat).wp (fun _ => True) F
      (fun r after => r = -1 ∧ after = world) world := by
  have din := onFile.caches.din sound
  have regular : ¬ (g.view (inums world ip)).type = T_DEV := by
    have isFile := onFile.fileOf_type sound
    rw [show (g.view (inums world ip)).type = T_FILE from isFile]
    decide
  unfold writei getInode
  simp only [Prog.wp_bind, Prog.wp_getMem, Prog.wp_pure, din]
  rw [if_neg regular]
  change (g.view (inums world ip)).size.toNat < _ ∨ _ at refused
  by_cases outside : (g.view (inums world ip)).size.toNat < off.toNat ∨ 2 ^ 32 ≤ off.toNat + n.toNat
  · rw [if_pos (outside_iff.mpr outside)]
    exact ⟨rfl, rfl⟩
  · obtain ⟨inside, narrow⟩ := not_or.mp outside
    rw [if_neg (mt outside_iff.mp outside), Nat.mod_eq_of_lt (Nat.not_le.mp narrow)]
    rcases refused with beyond | wide | long
    · exact absurd beyond inside
    · exact absurd wide narrow
    · rw [if_pos long]
      exact ⟨rfl, rfl⟩

/-- A request that finds nothing to change. -/
theorem Answers.nothing {request : Request} {reply : Reply} (onFile : OnFile world request.ip)
    (serve : (reply, contentOf (fileOf world g request.ip)) =
      request.serve (contentOf (fileOf world g request.ip))) :
    Answers world g request reply (fileOf world g request.ip) world (credited g) where
  regular := onFile.fileOf_type sound
  serve := serve
  alone _ := rfl
  moves := by
    refine ⟨0, fun floor => ?_⟩
    have still : some (fileOf world g request.ip) = g.files world.disk (inums world request.ip) :=
      (onFile.owns sound idle).files.symm
    rw [still, Function.update_eq_self]
    exact Moves.refl (sound_credited sound) (credited_idle idle) floor

theorem write_answers {ip : Slot} {src : Nat → Byte} {off n : BitVec 32}
    (onFile : OnFile world ip) :
    (Request.write ip src off n).program.wp (fun _ => True)
      (Exhausted world (inums world) (.write ip src off n))
      (fun reply after => ∃ node g', Answers world g (.write ip src off n) reply node after g')
      world := by
  have owns := onFile.owns sound idle
  have small := onFile.small sound idle
  have regular := onFile.fileOf_type sound
  obtain ⟨serve, still⟩ := write_serve regular ip off n small src
  change (writei ip src off.toNat n.toNat >>= _).wp _ _ _ _
  rw [Prog.wp_bind]
  by_cases refused : (fileOf world g ip).size.toNat < off.toNat ∨
      2 ^ 32 ≤ off.toNat + n.toNat ∨ MAXFILE * BSIZE < off.toNat + n.toNat
  · have rejected : ((-1, []), contentOf (fileOf world g ip)) =
        (Request.write ip src off n).serve (contentOf (fileOf world g ip)) := by
      change _ = (if _ then _ else _)
      rw [length_contentOf, if_pos refused]
    apply (writei_refused sound onFile refused).mono
    rintro _ after ⟨rfl, same⟩
    rw [same]
    exact ⟨_, _, .nothing sound idle onFile rejected⟩
  · have accepted : (Request.write ip src off n).serve (contentOf (fileOf world g ip)) =
        (((n.toNat, []), splice (contentOf (fileOf world g ip)) off.toNat
          ((List.range n.toNat).map src)) : Reply × List Byte) := by
      change (if _ then _ else _) = _
      rw [length_contentOf, if_neg refused]
    have reply : ((fileOf world g ip).write src off.toNat n.toNat).1 = n.toNat := by
      rw [accepted] at serve
      exact congrArg (·.1.1) serve
    have notDir : ∀ node : Node, node.type = T_FILE → node.type ≠ T_DIR := by
      intro node isFile
      rw [isFile]
      decide
    apply (writei_spec (P := fun _ => True) (F := Exhausted world (inums world) _)
      (fun _ _ _ => trivial) onFile.caches n.isLt (sound_credited sound)
      (credited_idle idle) (credited_owns owns) _
      (fun m _ _ _ => .of_notDir (notDir _ regular)) (.of_notDir (notDir _ still))).mono
    · rintro r after ⟨rfl, g', -, moves⟩
      refine ⟨_, g', still, serve, ?_, _, moves⟩
      intro failed
      change ((fileOf world g ip).write src off.toNat n.toNat).1 = -1 at failed
      rw [reply] at failed
      omega
    · intro low full g'' sound' none
      refine ⟨rfl, (freeOn_eq sound').trans none, _, onFile.contents sound idle, ?_⟩
      rw [freeOn_eq sound]
      refine Nat.lt_of_lt_of_eq low ?_
      unfold writeCost Request.cost
      rw [length_contentOf]
      rfl

theorem read_answers {ip : Slot} {off n : BitVec 32} (onFile : OnFile world ip) :
    (Request.read ip off n).program.wp (fun _ => True)
      (Exhausted world (inums world) (.read ip off n))
      (fun reply after => ∃ node g', Answers world g (.read ip off n) reply node after g')
      world := by
  apply readi_spec sound onFile.caches (onFile.owns sound idle) n.isLt
  exact ⟨_, _, .nothing sound idle onFile
    (read_serve (onFile.fileOf_type sound) ip off n (onFile.small sound idle))⟩

theorem truncate_answers {ip : Slot} (onFile : OnFile world ip) :
    (Request.truncate ip).program.wp (fun _ => True)
      (Exhausted world (inums world) (.truncate ip))
      (fun reply after => ∃ node g', Answers world g (.truncate ip) reply node after g')
      world := by
  have owns := onFile.owns sound idle
  have regular := onFile.fileOf_type sound
  have isFile : (g.view (inums world ip)).type = T_FILE := regular
  have file : FileSound world.disk ((credited g).put (inums world ip)
      { g.view (inums world ip) with size := 0 }) (inums world ip) := by
    constructor
    · rw [put_view_self]
      exact Nat.zero_le _
    · intro bn inside
      rw [put_view_self] at inside
      exact absurd inside (Nat.not_lt_zero _)
    · rw [put_view_self]
      apply EntriesSound.of_notDir
      change (g.view (inums world ip)).type ≠ T_DIR
      rw [isFile]
      decide
  have spec : (iupdate ip).wp (fun _ => True) (Exhausted world (inums world) (.truncate ip)) _
      { world with mem := world.mem.setInode ip (·.mapDin ({ · with size := 0 })) } :=
    setFields_spec (fun _ _ _ => trivial) (sound_credited sound)
      ((credited_idle idle).only _) onFile.caches
      (credited_owns owns) rfl owns.allocated file
  change (Sys.truncate ip >>= _).wp _ _ _ _
  unfold Sys.truncate modifyInode
  simp only [Prog.wp_bind, Prog.wp_modifyMem, Prog.wp_pure]
  apply spec.mono
  rintro _ after ⟨g', -, moves⟩
  have answers : Answers world g (.truncate ip) (0, []) { fileOf world g ip with size := 0 }
      after g' := ⟨regular, rfl, False.elim, 0, moves⟩
  exact ⟨_, g', answers⟩

/-- Every request answers as it does on a list of bytes. -/
theorem Request.answers {request : Request} (onFile : OnFile world request.ip) :
    request.program.wp (fun _ => True) (Exhausted world (inums world) request)
      (fun reply after => ∃ node g', Answers world g request reply node after g') world := by
  cases request with
  | write ip src off n => exact write_answers sound idle onFile
  | read ip off n => exact read_answers sound idle onFile
  | truncate ip => exact truncate_answers sound idle onFile

theorem Request.served {request : Request} (onFile : OnFile world request.ip) :
    request.program.wp (fun _ => True) (Exhausted world (inums world) request)
      (Served world request) world := by
  apply (Request.answers sound idle onFile).mono
  rintro reply after ⟨node, g', answers⟩
  exact answers.served sound idle onFile

end Requests

end Inodes

/-! ## Sequences of requests -/

theorem Request.step_congr {inum inum' : Slot → Nat} {request : Request}
    (same : inum request.ip = inum' request.ip) (contents : Contents) :
    request.step inum contents = request.step inum' contents := by
  unfold Request.step
  rw [same]

theorem replay_congr {inum inum' : Slot → Nat} {requests : List Request}
    (same : ∀ request ∈ requests, inum request.ip = inum' request.ip) (contents : Contents) :
    replay inum contents requests = replay inum' contents requests := by
  induction requests generalizing contents with
  | nil => rfl
  | cons request rest ih =>
      unfold replay
      rw [Request.step_congr (same request (List.mem_cons_self ..))]
      dsimp only
      rw [ih fun other member => same other (List.mem_cons_of_mem _ member)]

/-- After a truncation nothing depends on the bytes before it. -/
theorem replay_truncate {inum : Slot → Nat} {contents : Contents} {ip : Slot}
    {old : List Byte} (isThere : contents (inum ip) = some old) (bytes : List Byte)
    (later : List Request) :
    replay inum (Function.update contents (inum ip) (some bytes)) (.truncate ip :: later) =
      replay inum contents (.truncate ip :: later) := by
  have forgets : (Request.truncate ip).step inum
      (Function.update contents (inum ip) (some bytes)) =
        (Request.truncate ip).step inum contents := by
    unfold Request.step
    change (match Function.update contents (inum ip) (some bytes) (inum ip) with
      | none => _
      | some bytes => _) = match contents (inum ip) with
      | none => _
      | some bytes => _
    rw [Function.update_self, isThere]
    dsimp only
    exact congrArg (Prod.mk _) (Function.update_idem ..)
  unfold replay
  rw [forgets]

/-- What a sequence of requests leaves. -/
structure Replayed (start : FsWorld) (requests : List Request) (replies : List Reply)
    (world : FsWorld) : Prop where
  sound : ∃ g, Sound ∅ world g ∧ g.Idle
  replay : (replies, contents world) = replay (inums start) (contents start) requests
  keeps : ∀ ip, OnFile start ip → OnFile world ip ∧ inums world ip = inums start ip

/-- Each request finds what the ones before it have left. -/
theorem replayed {start world : FsWorld} {g : Ghost} (sound : Sound ∅ start g) (idle : g.Idle)
    {requests : List Request} (onFiles : ∀ request ∈ requests, OnFile start request.ip)
    {replies : List Reply} {writes : List (Nat × Block)}
    (returned : (serveAll requests).run start = ⟨.ret replies, world, writes⟩) :
    Replayed start requests replies world := by
  induction requests generalizing start g replies writes with
  | nil =>
      cases returned
      exact ⟨⟨g, sound, idle⟩, rfl, fun ip onFile => ⟨onFile, rfl⟩⟩
  | cons request rest ih =>
      obtain ⟨reply, middle, _, _, first, second⟩ := Prog.run_bind_ret returned
      obtain ⟨others, last, _, _, remaining, ended⟩ := Prog.run_bind_ret second
      cases ended
      have served := (Request.served sound idle (onFiles request (List.mem_cons_self ..))).run
      rw [first] at served
      obtain ⟨g', sound', idle'⟩ := served.sound
      have still : ∀ other ∈ rest, OnFile middle other.ip ∧
          inums middle other.ip = inums start other.ip :=
        fun other member => served.keeps _ (onFiles other (List.mem_cons_of_mem _ member))
      have after := ih sound' idle' (fun other member => (still other member).1) remaining
      constructor
      · exact after.sound
      · have step := served.step
        have follows := after.replay
        rw [replay_congr (fun other member => (still other member).2)] at follows
        unfold Sys.replay
        rw [← step]
        dsimp only
        rw [← follows]
      · intro ip onFile
        obtain ⟨here, inum⟩ := served.keeps ip onFile
        obtain ⟨there, inum'⟩ := after.keeps ip here
        exact ⟨there, inum'.trans inum⟩

/-- After any sequence of requests on regular files, the replies and the contents are those of
the sequence on lists of bytes, and so is what the next request returns and leaves.  It stops
only if no block is free. -/
theorem files_are_byte_arrays {start world : FsWorld} {g : Ghost} (sound : Sound ∅ start g)
    (idle : g.Idle) {done : List Request} {request : Request}
    (onFiles : ∀ other ∈ request :: done, OnFile start other.ip) {replies : List Reply}
    {writes : List (Nat × Block)}
    (returned : (serveAll done).run start = ⟨.ret replies, world, writes⟩) :
    (replies, contents world) = replay (inums start) (contents start) done ∧
      Prog.Run.Ends (Exhausted world (inums start) request)
        (fun reply after =>
          (reply, contents after) = request.step (inums start) (contents world) ∧
            (request.LeavesAlone reply → after = world))
        (request.program.run world) := by
  have before := replayed sound idle
    (fun other member => onFiles other (List.mem_cons_of_mem _ member)) returned
  obtain ⟨g', sound', idle'⟩ := before.sound
  obtain ⟨onFile, inum⟩ := before.keeps _ (onFiles request (List.mem_cons_self ..))
  refine ⟨before.replay, ?_⟩
  apply Prog.wp.run (P := fun _ => True)
  apply (Request.served sound' idle' onFile).conseq (fun _ => id)
  · rintro reason after ⟨rfl, none, bytes, found, low⟩
    exact ⟨rfl, none, bytes, by rwa [← inum], low⟩
  · intro reply after served
    have step := served.step
    rw [Request.step_congr inum] at step
    exact ⟨step, served.alone⟩

/-- The first call of the first process keeps the invariant. -/
theorem intact_afterCall {call : Call} {r : Int}
    (outcome : ((syscallHandler call).run firstWorld).outcome = .ret r)
    (spares : NoRawDirectory firstWorld (.call call)) :
    ∃ g, Intact (afterCall call firstWorld) g := by
  have first := (bootedWorld_intact.timer perform_first).1
  have ends := (first.call rfl spares).run
  rw [run_of_outcome outcome] at ends
  obtain ⟨g, intact, -⟩ := ends
  exact ⟨g, intact⟩

/-- Three bytes are written at the start of an opened file and read back with two more. -/
theorem files_are_byte_arrays_small : ∃ start world : FsWorld,
    ([(3, [])], contents world) =
        replay (inums start) (contents start) [.write 1 (fun _ => 7) 0 3] ∧
      Prog.Run.Ends (Exhausted world (inums start) (.read 1 0 5))
        (fun reply after =>
          (reply, contents after) =
              (Request.read 1 0 5).step (inums start) (contents world) ∧
            ((Request.read 1 0 5).LeavesAlone reply → after = world))
        ((Request.read 1 0 5).program.run world) := by
  have opened : ((syscallHandler (openingCall (O_RDWR ||| O_TRUNC))).run firstWorld).outcome =
      .ret 3 := by decide +kernel
  obtain ⟨g, intact⟩ := intact_afterCall opened trivial
  have onFile : OnFile (afterCall (openingCall (O_RDWR ||| O_TRUNC)) firstWorld) 1 :=
    ⟨by decide +kernel, by decide +kernel, by decide +kernel⟩
  have outcome : ((serveAll [.write 1 (fun _ => 7) 0 3]).run
      (afterCall (openingCall (O_RDWR ||| O_TRUNC)) firstWorld)).outcome = .ret [(3, [])] := by
    decide +kernel
  generalize afterCall (openingCall (O_RDWR ||| O_TRUNC)) firstWorld = start at *
  cases ran : (serveAll [.write 1 (fun _ => 7) 0 3]).run start with
  | mk ended world writes =>
      rw [ran] at outcome
      cases outcome
      refine ⟨start, world, files_are_byte_arrays intact.sound intact.idle ?_ ran⟩
      simpa [Request.ip] using onFile

end Notux.Sys
