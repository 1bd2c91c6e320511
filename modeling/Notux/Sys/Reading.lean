import Notux.Sys.Loading
import Notux.Sys.Lookup

/-!
# Reading by path

The kernel reads what lies below the root as the files say, and an image as `mkfs` has written it.
-/

namespace Notux.Sys

open Notux.Store Notux.Proc Notux.Fs

/-- The file that a path names. -/
def fileAt (world : FsWorld) (path : List Byte) : Option Node :=
  (inumAt world path).bind (filesOn world)

/-! ## Reading a path -/

/-- `xv6fs_bridge_read_file`: what it returns, and the bytes it has put into the buffer. -/
def xv6fsBridgeReadFile (path : List Byte) (maxlen : Nat) : FsM (Int × List Byte) := do
  match ← namei path with
  | none => return (-1, [])
  | some ip =>
      ilock ip
      let result ← readi ip 0 maxlen
      iunlock ip
      iput ip
      return result

/-- The file has been read, and otherwise the kernel rests. -/
def ReadsBack (world : FsWorld) (path : List Byte) (maxlen : Nat) (result : Int × List Byte)
    (after : FsWorld) : Prop :=
  result = (fileAt world path).elim (-1, []) (fun node => node.read 0 maxlen) ∧ Rests world after

/-! ## Reading a program -/

/-- The bytes that `spawn_from_xv6fs` takes from a file: all of them, unless there are none or too
many, or the file is a device.  The type is not asked for: a directory is taken, too. -/
def programOf (node : Node) : Option (List Byte) :=
  if 0 < node.size.toNat ∧ node.size.toNat ≤ MAX_ELF_SIZE ∧ node.type ≠ T_DEV then
    some (node.slice 0 node.size.toNat)
  else none

/-- The bytes of a file in memory. -/
def imageBytes (file : Vmm.ElfFile) : List Byte := (List.range file.size).map file.bytes

/-- The program has been read into the buffer, and otherwise the kernel rests. -/
def Fetches (world : FsWorld) (path : List Byte) (result : Option Vmm.ElfFile)
    (after : FsWorld) : Prop :=
  result.map imageBytes = (fileAt world path).bind programOf ∧ Rests world after

/-- Reading a file in full. -/
theorem read_all {node : Node} (nonempty : 0 < node.size.toNat) (small : node.size.toNat < 2 ^ 31) :
    (node.type ≠ T_DEV →
      node.read 0 node.size.toNat = ((node.size.toNat : Int), node.slice 0 node.size.toNat)) ∧
    (node.type = T_DEV → (node.read 0 node.size.toNat).1 ≠ node.size.toNat) := by
  constructor
  · intro notDevice
    unfold Node.read
    rw [if_neg notDevice, Nat.zero_add, Nat.mod_eq_of_lt node.size.isLt, if_neg (by omega),
      if_neg (by omega), toInt32_eq small]
  · intro device
    unfold Node.read
    rw [if_pos device]
    split
    · dsimp only
      omega
    · dsimp only
      omega

/-- The buffer is no concern of the file system. -/
theorem Visits.loadBuffer {world middle : FsWorld} {g : Ghost} {n : Nat} {ip : Slot}
    (visits : Visits world n ip middle g) (buffer : Nat → Byte) :
    Visits world n ip ⟨{ middle.mem with elfLoadBuffer := buffer }, middle.disk⟩ g where
  stays :=
    { visits.stays with
      firm :=
        { visits.stays.firm with
          sound := visits.stays.firm.sound.sameEntries (sameEntries_refl _) rfl rfl
          holding := ⟨visits.stays.firm.holding.table, visits.stays.firm.holding.held,
            visits.stays.firm.holding.used⟩ } }
  caches := ⟨visits.caches.inUse, visits.caches.valid, visits.caches.inum⟩
  attached := visits.attached

/-! ## What is read -/

section Reading

variable {world : FsWorld} {g : Ghost} {extra : Nat → Nat} (intact : Intact world g)
  (forest : (filesOn world).Forest extra)

include intact forest

/-- From below the root a path is read as the files say. -/
theorem xv6fsBridgeReadFile_reads {path : List Byte} {maxlen : Nat} (few : maxlen < 2 ^ 32)
    (attached : (filesOn world).Attached (Files.startOf world.mem.cwdInum path)) :
    (xv6fsBridgeReadFile path maxlen).wp (fun _ => False) (OnlyFull (Scarce 3 world.mem.refs))
      (ReadsBack world path maxlen) world := by
  unfold xv6fsBridgeReadFile
  rw [Prog.wp_bind]
  apply (namei_names intact forest attached).mono
  intro found middle names
  cases found with
  | none =>
      obtain ⟨missing, g', stays⟩ := names
      refine ⟨?_, stays.rests⟩
      rw [fileAt, missing]
      rfl
  | some ip =>
      obtain ⟨n, g', leads, below, inum, stays⟩ := names
      simp only [Prog.wp_bind, Prog.wp_pure]
      apply (stays.visit inum below).mono
      intro _ locked visits
      have isNode : fileAt world path = some ((g'.view n).node locked.disk) := by
        rw [fileAt, leads]
        exact visits.stays.node visits.caches
      have sound := visits.stays.firm.sound
      apply readi_spec sound visits.caches
        (visits.caches.owns sound (visits.stays.firm.idle.attached n)) few
      apply visits.leave
      intro final rests
      refine ⟨?_, rests⟩
      rw [isNode]
      rfl

/-- From below the root a program is read as the files say. -/
theorem readImage_fetches {path : List Byte}
    (attached : (filesOn world).Attached (Files.startOf world.mem.cwdInum path)) :
    (Loading.readImage path).wp (fun _ => False) (OnlyFull (Scarce 3 world.mem.refs))
      (Fetches world path) world := by
  unfold Loading.readImage
  rw [Prog.wp_bind]
  apply (namei_names intact forest attached).mono
  intro found middle names
  cases found with
  | none =>
      obtain ⟨missing, g', stays⟩ := names
      refine ⟨?_, stays.rests⟩
      rw [fileAt, missing]
      rfl
  | some ip =>
      obtain ⟨n, g', leads, below, inum, stays⟩ := names
      simp only [Prog.wp_bind]
      apply (stays.visit inum below).mono
      intro _ locked visits
      have isNode : fileAt world path = some ((g'.view n).node locked.disk) := by
        rw [fileAt, leads]
        exact visits.stays.node visits.caches
      have sound := visits.stays.firm.sound
      simp only [getInode, Prog.wp_bind, Prog.wp_getMem, Prog.wp_pure,
        visits.caches.din sound]
      unfold Fetches
      rw [isNode, Option.bind_some, programOf, node_size, node_type]
      split
      · next wrong =>
        rw [if_neg (by omega)]
        simp only [Prog.wp_bind, Prog.wp_pure]
        apply visits.leave
        intro final rests
        exact ⟨rfl, rests⟩
      · next fits =>
        have nonempty : 0 < (g'.view n).size.toNat := by omega
        have small : (g'.view n).size.toNat < 2 ^ 31 := by
          have bound : MAX_ELF_SIZE < 2 ^ 31 := by decide
          omega
        obtain ⟨inFull, atDevice⟩ := @read_all ((g'.view n).node locked.disk) nonempty small
        rw [node_type, node_size] at inFull atDevice
        rw [Prog.wp_bind]
        apply readi_spec sound visits.caches
          (visits.caches.owns sound (visits.stays.firm.idle.attached n)) (by omega)
        simp only [loadBuffer, Prog.wp_bind, Prog.wp_getMem, Prog.wp_setMem, Prog.wp_pure]
        apply (visits.loadBuffer _).leave
        intro final rests
        by_cases device : (g'.view n).type = T_DEV
        · rw [if_pos (atDevice device), if_neg (by tauto)]
          exact ⟨rfl, rests⟩
        · rw [inFull device, if_neg (by simp), if_pos ⟨nonempty, by omega, device⟩]
          refine ⟨congrArg some ?_, rests⟩
          apply List.ext_getElem
          · simp [imageBytes, Node.slice]
          · intro i left right
            simp only [imageBytes, List.length_map, List.length_range] at left
            simp [imageBytes, Node.slice, List.getD, left]

end Reading


/-! ## Reading what `mkfs` has written -/

/-- A step of a path from a directory to what it binds. -/
theorem walk_child {files : Files} {fuel d n : Nat} {path name rest : List Byte}
    (element : skipelem path = some (name, rest)) (bound : files.naming.child d name = some n) :
    files.walk false (fuel + 1) d path = files.walk false fuel n rest := by
  obtain ⟨node, found, isDir, -⟩ := Files.child_iff.mp bound
  rw [Files.walk_succ element found isDir (fun both => Bool.noConfusion both.1),
    Files.find_of_child bound, Option.bind_some]

/-- Reading a regular file from its start. -/
theorem read_fileNode {bytes : List Byte} {n : Nat} (small : bytes.length < 2 ^ 31)
    (few : n < 2 ^ 32) :
    (Mkfs.fileNode bytes).read 0 n = (((bytes.take n).length : Int), bytes.take n) := by
  have size := Mkfs.size_fileNode (show bytes.length < 2 ^ 32 by omega)
  have slice : ∀ m, m ≤ bytes.length → (Mkfs.fileNode bytes).slice 0 m = bytes.take m := by
    intro m within
    apply List.ext_getElem
    · simp [Node.slice]
      omega
    · intro i left right
      simp only [Node.slice, List.length_map, List.length_range] at left
      simp [Node.slice, Mkfs.fileNode, List.getD, show i < bytes.length by omega]
  have notDevice : ¬ (Mkfs.fileNode bytes).type = T_DEV := show ¬ T_FILE = T_DEV by decide
  unfold Node.read
  rw [if_neg notDevice, size, Nat.zero_add, Nat.mod_eq_of_lt few, if_neg (by omega)]
  split
  · next beyond =>
    rw [Nat.sub_zero, slice _ le_rfl, toInt32_eq (by omega), List.take_of_length_le beyond.le,
      List.take_of_length_le le_rfl]
  · next within =>
    rw [slice _ (by omega), toInt32_eq (by omega), List.length_take, min_eq_left (by omega)]

/-- `/bin/child`. -/
def childPath : CString := ⟨[slash, 98, 105, 110, slash, 99, 104, 105, 108, 100], by decide⟩

theorem resolve_child {binary : List Byte} (cwd : Nat) :
    (Mkfs.table (Mkfs.imageNodes binary)).resolve cwd childPath.bytes false = some (6, []) := by
  have first : skipelem childPath.bytes = some (Mkfs.ascii "bin", Mkfs.ascii "child") := by decide
  have second : skipelem (Mkfs.ascii "child") = some (Mkfs.ascii "child", []) := by decide
  have absolute : childPath.bytes.head? = some slash := rfl
  have isBin : (Mkfs.table (Mkfs.imageNodes binary)).naming.child ROOTINO (Mkfs.ascii "bin") = some 3 :=
    Mkfs.child_image.mpr (by decide)
  have isChild : (Mkfs.table (Mkfs.imageNodes binary)).naming.child 3 (Mkfs.ascii "child") = some 6 :=
    Mkfs.child_image.mpr (by decide)
  unfold Files.resolve
  rw [if_pos absolute, walk_child first isBin]
  exact walk_child second isChild

/-- The kernel reads from `/bin/child` of an image what `mkfs` has embedded, in whatever chunks it
was given it, as long as the bitmap fits into the buffer of `mkfs`. -/
theorem image_reads_back {binary : List Byte} {start : FsWorld} (starts : Starts binary start)
    (fits : binary.length ≤ Mkfs.maxBinary) {maxlen : Nat} (few : maxlen < 2 ^ 32) :
    Silent (fun _ _ => False)
      (fun result after =>
        result = (((binary.take maxlen).length : Int), binary.take maxlen) ∧ Rests start after)
      ((xv6fsBridgeReadFile childPath.bytes maxlen).run start) := by
  obtain ⟨g, intact, -⟩ := starts.intact
  have forest : (filesOn start).Forest Mkfs.imageExtra := by
    rw [starts.files]
    exact Mkfs.forest_image
  have room : ¬ Scarce 3 start.mem.refs := by
    have free : start.mem.refs = 0 := funext starts.booted.refs
    unfold Scarce
    rw [free]
    simp only [Pi.zero_apply, Finset.filter_true, Finset.card_univ, Fintype.card_fin]
    decide
  have small : binary.length < 2 ^ 31 := Nat.lt_of_le_of_lt fits (by decide)
  apply silent_of_wp
  apply (xv6fsBridgeReadFile_reads intact forest few (attached_absolute rfl)).conseq (fun _ => id)
    (fun _ _ stops => room stops.2)
  rintro result after ⟨rfl, same⟩
  refine ⟨?_, same⟩
  have isChild : fileAt start childPath.bytes = some (Mkfs.fileNode binary) := by
    rw [fileAt, inumAt, starts.files, resolve_child]
    rfl
  rw [isChild]
  exact read_fileNode small few

theorem exists_image : ∃ start, Starts [127, 69] start := by
  have fits : Mkfs.imageBlocks ([[127], [69]] : List (List Byte)).flatten.length ≤ Mkfs.FSSIZE := by
    decide
  obtain ⟨final, made⟩ := Mkfs.mkfs_succeeds fits
  exact ⟨⟨imageKernel, final.disk⟩, .of_made made⟩

/-- Two embedded bytes are read. -/
theorem image_reads_back_small : ∃ start, Starts [127, 69] start ∧
    Silent (fun _ _ => False)
      (fun result after => result = ((([127, 69].take 100).length : Int),
        [127, 69].take 100) ∧ Rests start after)
      ((xv6fsBridgeReadFile childPath.bytes 100).run start) := by
  obtain ⟨start, starts⟩ := exists_image
  exact ⟨start, starts, @image_reads_back [127, 69] _ starts (by decide) 100 (by decide)⟩

end Notux.Sys
