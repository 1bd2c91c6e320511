import Notux.Sys.Lookup

/-!
# Requests that are refused

Where `xv6fs_create` returns null and where `xv6fs_unlink` returns -1, nothing has been written and
everything is as it was.  Only the kernel's working directory is set to the root by the first
relative path, if no `chdir` has set it.
-/

namespace Notux.Sys

open Notux.Store Notux.Proc Notux.Fs

/-- The inode is locked and borrowed, and everything else is as it was. -/
structure Borrows (world : FsWorld) (n : Nat) (ip : Slot) (after : FsWorld) : Prop where
  files : filesOn after = filesOn world
  table : after.mem.table = world.mem.table
  cwd : ∀ ip, world.mem.cwd = some ip → after.mem.cwd = some ip
  cwdInum : after.mem.cwdInum = world.mem.cwdInum
  refs : after.mem.refs = world.mem.refs + oneOf after.mem.cwd - oneOf world.mem.cwd + one ip
  locked : Fs.Holding (insert ip ∅) after.mem
  inum : (after.mem.icache ip).inum = n

theorem Visits.borrows {world after : FsWorld} {g : Ghost} {ip : Slot} {n : Nat}
    (visits : Visits world n ip after g) : Borrows world n ip after where
  files := visits.stays.files
  table := visits.stays.table
  cwd := visits.stays.cwd
  cwdInum := visits.stays.cwdInum
  refs := visits.stays.refs
  locked := visits.stays.firm.holding
  inum := visits.caches.inum

/-- What creating a name that is there comes to: a regular file that is asked for is handed out, and
anything else is refused. -/
def Known (world : FsWorld) (type : BitVec 16) (n : Nat) (result : Option Slot)
    (after : FsWorld) : Prop :=
  match result with
  | none => (type = T_FILE → ∀ node, filesOn world n = some node → node.type ≠ T_FILE) ∧
      Rests world after
  | some ip => type = T_FILE ∧ (∃ node, filesOn world n = some node ∧ node.type = T_FILE) ∧
      Borrows world n ip after

/-- What `xv6fs_unlink` does not remove: the dots, what is not there, what has no links, and a
directory with names in it. -/
def Retains (files : Files) (d : Nat) (name : List Byte) : Prop :=
  IsDots name ∨ files.find d name = none ∨ ∃ n node, files.find d name = some n ∧
    files n = some node ∧ (node.nlink.toInt < 1 ∨
      node.type = T_DIR ∧ ∃ off, node.Used off ∧ 2 * DIRENT_SIZE ≤ off)

/-- What `xv6fs_create` does not make or hand out: what is there, unless a regular file is asked for
and is there. -/
def Taken (files : Files) (type : BitVec 16) (d : Nat) (name : List Byte) : Prop :=
  ∃ n node, files.find d name = some n ∧ files n = some node ∧
    ¬ (type = T_FILE ∧ node.type = T_FILE)

/-- What a request comes to that fails where it is refused, and then leaves everything as it is. -/
def Refuses {α : Type} (refused : Prop) (failure : α) (world : FsWorld) (value : α)
    (after : FsWorld) : Prop :=
  (refused → value = failure ∧ Rests world after) ∧ (¬ refused → value ≠ failure)

/-- Where a request is refused it writes nothing and only panics for want of inodes. -/
def Declines {α : Type} (refused full : Prop) (failure : α) (world : FsWorld) (program : FsM α)
    (middle : FsWorld) : Prop :=
  program.wp (fun _ => ¬ refused) (fun reason after => refused → OnlyFull full reason after)
    (Refuses refused failure world) middle

/-- Steps that write nothing. -/
theorem quietly {α : Type} {refused full : Prop} {program : FsM α} {Q : α → FsWorld → Prop}
    {world : FsWorld} (holds : program.wp (fun _ => False) (OnlyFull full) Q world) :
    program.wp (fun _ => ¬ refused) (fun reason after => refused → OnlyFull full reason after) Q
      world :=
  holds.conseq (fun _ => False.elim) (fun _ _ stops _ => stops) fun _ _ => id

/-- An exit that fails. -/
theorem declines_of_rests {α : Type} {refused full : Prop} {failure : α} {program : FsM α}
    {world middle : FsWorld} (isRefused : refused) (holds : program.wp (fun _ => False)
      (OnlyFull full) (fun value after => value = failure ∧ Rests world after) middle) :
    Declines refused full failure world program middle :=
  (quietly holds).mono fun _ _ rests => ⟨fun _ => rests, fun goes => absurd isRefused goes⟩

/-- An exit that succeeds. -/
theorem declines_of_goes {α : Type} {refused full : Prop} {failure : α} {program : FsM α}
    {world middle : FsWorld} (goes : ¬ refused) (holds : program.wp (fun _ => True)
      (fun _ _ => True) (fun value _ => value ≠ failure) middle) :
    Declines refused full failure world program middle :=
  holds.conseq (fun _ _ => goes) (fun _ _ _ refused => absurd refused goes)
    fun _ _ succeeds => ⟨fun refused => absurd refused goes, fun _ => succeeds⟩

/-- What a name leads to is there. -/
theorem known_node {files : Files} {extra : Nat → Nat} (forest : files.Forest extra) {d n : Nat}
    {name : List Byte} {node : Node} (attached : files.Attached d) (isNode : files d = some node)
    (isDir : node.type = T_DIR) (isName : files.find d name = some n) :
    ∃ child, files n = some child := by
  rw [Files.find_eq isNode] at isName
  obtain ⟨off, found, rfl⟩ := Option.map_eq_some_iff.mp isName
  obtain ⟨used, -⟩ := Node.lookup_used found
  obtain ⟨child, isChild, -⟩ := forest.attached_node
    (forest.attached_names attached ⟨node, off, isNode, isDir, used.1, used.2, rfl⟩)
  exact ⟨child, isChild⟩

/-- Only the dots lead from a directory to itself. -/
theorem find_apart {files : Files} {extra : Nat → Nat} (forest : files.Forest extra) {d n : Nat}
    {name : List Byte} {node : Node} (fits : Fits name) (notDots : ¬ IsDots name)
    (isNode : files d = some node) (isDir : node.type = T_DIR)
    (isName : files.find d name = some n) : n ≠ d := by
  rintro rfl
  rw [Files.find_eq isNode] at isName
  obtain ⟨off, found, isOff⟩ := Option.map_eq_some_iff.mp isName
  have bound := Files.child_iff.mpr ⟨node, isNode, isDir, Node.bound_of_lookup fits notDots found⟩
  rw [isOff] at bound
  exact forest.formed.grounded.irrefl.irrefl n ⟨name, bound⟩

/-- Giving back two locked inodes. -/
theorem Stays.releaseBoth {full : Prop} {world middle : FsWorld} {g : Ghost} {ip dp : Slot}
    {n d : Nat} (stays : Stays world (insert ip (insert dp ∅)) (one dp + one ip) middle g)
    (apart : ip ≠ dp) (inumIp : (middle.mem.icache ip).inum = n)
    (belowIp : (filesOn world).Attached n) (inumDp : (middle.mem.icache dp).inum = d)
    (belowDp : (filesOn world).Attached d) :
    (unlockputBoth ip dp).wp (fun _ => False) (OnlyFull full) (fun _ => Rests world) middle := by
  unfold unlockputBoth
  simp only [Prog.wp_bind]
  apply stays.release (by simpa using apart) (le_add_of_nonneg_left (nonneg_one dp)) inumIp belowIp
  intro after g' stays' keeps
  rw [add_sub_cancel_right] at stays' keeps
  apply stays'.release (Set.notMem_empty dp) le_rfl ((keeps dp (one_pos dp)).1.trans inumDp) belowDp
  intro final g'' rests _
  rw [sub_self] at rests
  exact rests.rests

section Inside

variable {full : Prop} {world middle : FsWorld} {g : Ghost} {extra : Nat → Nat} {dp : Slot}
  {d n : Nat} {name : List Byte} {node : Node}
  (forest : (filesOn world).Forest extra) (stays : Stays world ∅ (one dp) middle g)
  (inum : (middle.mem.icache dp).inum = d) (attached : (filesOn world).Attached d)
  (isNode : filesOn world d = some node) (isDir : node.type = T_DIR)

include forest stays inum attached isNode isDir

/-- Creating a name that is there. -/
theorem createIn_known {type major minor : BitVec 16}
    (known : (filesOn world).find d name = some n) :
    (createIn dp name type major minor).wp (fun _ => False) (OnlyFull (Scarce 3 world.mem.refs))
      (Known world type n) middle := by
  unfold createIn
  rw [Prog.wp_bind]
  apply (stays.ilock (Set.notMem_empty dp) (one_pos dp) inum attached).mono
  rintro _ locked ⟨stays₁, caches, keeps₁⟩
  rw [Prog.wp_bind]
  apply (stays₁.dirlookup forest caches attached isNode isDir (stays₁.scarce rfl)).mono
  intro found looked result
  cases found with
  | none => exact absurd (known.symm.trans result.1) (Option.some_ne_none n)
  | some pair =>
      obtain ⟨ip, off⟩ := pair
      obtain ⟨n', g', isName, -, below, isIp, stays₂, keeps₂⟩ := result
      cases known.symm.trans isName
      have inumDp : (looked.mem.icache dp).inum = d :=
        (keeps₂ dp (one_pos dp)).1.trans caches.inum
      simp only [Prog.wp_bind]
      apply stays₂.release (Set.notMem_empty dp) (le_add_of_nonneg_right (nonneg_one ip)) inumDp
        attached
      intro released g'' stays₃ keeps₃
      rw [add_sub_cancel_left] at stays₃ keeps₃
      apply (stays₃.visit ((keeps₃ ip (one_pos ip)).1.trans isIp) below).mono
      intro _ visited visits
      have isFile := visits.stays.node visits.caches
      simp only [getInode, Prog.wp_bind, Prog.wp_getMem, Prog.wp_pure,
        visits.caches.din visits.stays.firm.sound]
      split
      · next both => exact ⟨both.1, ⟨_, isFile, both.2⟩, visits.borrows⟩
      · next other =>
        simp only [Prog.wp_bind, Prog.wp_pure]
        apply visits.leave
        intro final rests
        refine ⟨fun asked node found isFile' => other ⟨asked, ?_⟩, rests⟩
        rw [isFile] at found
        cases found
        exact isFile'

/-- Creating a name: what is taken is left as it is, and anything else is made or handed out. -/
theorem createIn_declines (type major minor : BitVec 16) :
    Declines (Taken (filesOn world) type d name) (Scarce 3 world.mem.refs) none world
      (createIn dp name type major minor) middle := by
  have files : g.files middle.disk = filesOn world := by
    rw [files_eq_filesOn stays.firm.sound stays.firm.idle, stays.files]
  cases known : (filesOn world).find d name with
  | some n =>
      apply (quietly (createIn_known forest stays inum attached isNode isDir known)).mono
      intro result after leaves
      cases result with
      | none =>
          obtain ⟨other, rests⟩ := leaves
          refine ⟨fun _ => ⟨rfl, rests⟩, fun goes => absurd ?_ goes⟩
          obtain ⟨child, isChild⟩ := known_node forest attached isNode isDir known
          exact ⟨n, child, known, isChild, fun both => other both.1 child isChild both.2⟩
      | some ip =>
          obtain ⟨asked, ⟨child, isChild, isFile⟩, -⟩ := leaves
          refine ⟨?_, fun _ => Option.some_ne_none ip⟩
          rintro ⟨other, child', isOther, isChild', refused⟩
          cases known.symm.trans isOther
          cases isChild.symm.trans isChild'
          exact absurd ⟨asked, isFile⟩ refused
  | none =>
      have goes : ¬ Taken (filesOn world) type d name := by
        rintro ⟨n, child, isName, -⟩
        exact absurd (isName.symm.trans known) (Option.some_ne_none n)
      apply declines_of_goes goes
      have owed : one dp ≤ g.held := (le_add_of_nonneg_left (nonneg_oneOf _)).trans stays.held
      have dirOnly : ∀ other, g.files middle.disk d = some other → other.type = T_DIR := by
        intro other isOther
        rw [files, isNode] at isOther
        cases isOther
        exact isDir
      have absent : node.lookup name = none := by
        rw [Files.find_eq isNode] at known
        exact Option.map_eq_none_iff.mp known
      apply (createIn_spec (fun _ _ _ => trivial) permits_all stays.stands owed inum dirOnly).mono
      rintro _ after ⟨g', files', creates, -⟩ rfl
      have creates' : (filesOn world).CreatesIn d name type major minor none files' :=
        files ▸ creates
      cases creates' with
      | refused isThere _ found _ _ =>
          rw [isNode] at isThere
          cases isThere
          exact absurd (absent.symm.trans found) (Option.some_ne_none _).symm

/-- Removing a name: what is retained is left as it is, and everything else goes. -/
theorem unlinkIn_declines (fits : Fits name) :
    Declines (Retains (filesOn world) d name) (Scarce 3 world.mem.refs) (-1) world
      (unlinkIn dp name) middle := by
  unfold unlinkIn Declines
  rw [Prog.wp_bind]
  apply (quietly (stays.ilock (Set.notMem_empty dp) (one_pos dp) inum attached)).mono
  rintro _ locked ⟨stays₁, caches, keeps₁⟩
  have visits : Visits world d dp locked g := ⟨stays₁, caches, attached⟩
  split
  · next isDots =>
    apply declines_of_rests (Or.inl isDots)
    simp only [Prog.wp_bind, Prog.wp_pure]
    apply visits.leave
    intro final rests
    exact ⟨trivial, rests⟩
  · next notDots =>
    rw [Prog.wp_bind]
    apply (quietly (stays₁.dirlookup forest caches attached isNode isDir (stays₁.scarce rfl))).mono
    intro found looked result
    cases found with
    | none =>
        obtain ⟨missing, rfl⟩ := result
        apply declines_of_rests (Or.inr (Or.inl missing))
        simp only [Prog.wp_bind, Prog.wp_pure]
        apply visits.leave
        intro final rests
        exact ⟨trivial, rests⟩
    | some pair =>
        obtain ⟨ip, off⟩ := pair
        obtain ⟨n, g', isName, entry, below, isIp, stays₂, keeps₂⟩ := result
        have inumDp : (looked.mem.icache dp).inum = d :=
          (keeps₂ dp (one_pos dp)).1.trans caches.inum
        have differ := find_apart forest fits notDots isNode isDir isName
        have apart : ip ≠ dp := by
          rintro rfl
          exact differ (isIp.symm.trans inumDp)
        have positiveIp : 0 < (one dp + one ip) ip :=
          lt_of_lt_of_le (one_pos ip) (le_add_of_nonneg_left (nonneg_one dp ip))
        have positiveDp : 0 < (one dp + one ip) dp :=
          lt_of_lt_of_le (one_pos dp) (le_add_of_nonneg_right (nonneg_one ip dp))
        simp only [Prog.wp_bind]
        apply (quietly (stays₂.ilock (by simpa using apart) positiveIp isIp below)).mono
        rintro _ both ⟨stays₃, cachesIp, keeps₃⟩
        have cachesDp : Caches both dp d :=
          (caches.keep keeps₂ (one_pos dp)).keep keeps₃ positiveDp
        have isFile := stays₃.node cachesIp
        have sound := stays₃.firm.sound
        -- the exits that give up both inodes
        have leave : Retains (filesOn world) d name →
            Declines (Retains (filesOn world) d name) (Scarce 3 world.mem.refs) (-1) world (do
              unlockputBoth ip dp
              return -1) both := by
          intro refused
          apply declines_of_rests refused
          simp only [Prog.wp_bind, Prog.wp_pure]
          apply (stays₃.releaseBoth apart cachesIp.inum below cachesDp.inum attached).mono
          intro _ final rests
          exact ⟨trivial, rests⟩
        -- the exit that removes the entry
        have remove : ¬ Retains (filesOn world) d name →
            Declines (Retains (filesOn world) d name) (Scarce 3 world.mem.refs) (-1) world
              (unlinkEntry dp ip off) both := by
          intro goes
          have files : g'.files both.disk = filesOn world := by
            rw [files_eq_filesOn sound stays₃.firm.idle, stays₃.files]
          have held : one ip + one dp ≤ g'.held := by
            rw [add_comm]
            exact (le_add_of_nonneg_left (nonneg_oneOf _)).trans stays₃.held
          apply declines_of_goes goes
          apply (unlinkEntry_spec (fun _ _ _ => trivial) permits_all stays₃.stands cachesDp cachesIp
            differ held (files ▸ isNode) isDir (entry node isNode) (files ▸ isFile)).mono
          rintro r _ ⟨rfl, -⟩
          decide
        -- what the checks find is what is retained
        have retained : Retains (filesOn world) d name ↔ (g'.view n).nlink.toInt < 1 ∨
            (g'.view n).type = T_DIR ∧ ∃ off', ((g'.view n).node both.disk).Used off' ∧
              2 * DIRENT_SIZE ≤ off' := by
          constructor
          · rintro (isDots | missing | ⟨other, child, isOther, isChild, refused⟩)
            · exact absurd isDots notDots
            · exact absurd (isName.symm.trans missing) (Option.some_ne_none n)
            · cases isName.symm.trans isOther
              cases isFile.symm.trans isChild
              exact refused
          · exact fun refused => Or.inr (Or.inr ⟨n, _, isName, isFile, refused⟩)
        simp only [getInode, Prog.wp_bind, Prog.wp_getMem, Prog.wp_pure, cachesIp.din sound]
        split
        · next unlinked => exact leave (retained.mpr (Or.inl unlinked))
        · next linked =>
          split
          · next isChildDir =>
            rw [Prog.wp_bind]
            have owns := cachesIp.owns sound (stays₃.firm.idle.attached n)
            have whole := (forest.listed n _ isFile isChildDir).whole
            apply (isdirempty_exact sound cachesIp owns isChildDir whole).mono
            rintro empty _ ⟨rfl, tells⟩
            cases empty with
            | false => exact leave (retained.mpr (Or.inr ⟨isChildDir, tells.mp rfl⟩))
            | true =>
                apply remove
                intro refused
                rcases retained.mp refused with unlinked | ⟨-, holds⟩
                · exact linked unlinked
                · exact absurd (tells.mpr holds) Bool.noConfusion
          · next notDir =>
            apply remove
            intro refused
            rcases retained.mp refused with unlinked | ⟨isChildDir, -⟩
            · exact linked unlinked
            · exact notDir isChildDir

end Inside

/-! ## Paths -/

/-- Creating a path is refused: there is no directory for it, or its name is taken. -/
def CreateRefused (world : FsWorld) (path : List Byte) (type : BitVec 16) : Prop :=
  ∀ d name, (filesOn world).resolve world.mem.cwdInum path true = some (d, name) →
    Taken (filesOn world) type d name

/-- Removing a path is refused: there is no directory for it, or its name is retained. -/
def UnlinkRefused (world : FsWorld) (path : List Byte) : Prop :=
  ∀ d name, (filesOn world).resolve world.mem.cwdInum path true = some (d, name) →
    Retains (filesOn world) d name

section Paths

variable {world : FsWorld} {g : Ghost} {extra : Nat → Nat} (intact : Intact world g)
  (forest : (filesOn world).Forest extra) {path : CString}
  (attached : (filesOn world).Attached (Files.startOf world.mem.cwdInum path.bytes))

include intact forest attached

/-- A request in the directory of a path declines what its part in the directory declines. -/
theorem parent_declines {α : Type} {failure : α} {refused : Nat → List Byte → Prop}
    {inside : Slot → List Byte → FsM α}
    (declines : ∀ {d dp name node middle} {g' : Ghost}, Fits name → Stays world ∅ (one dp) middle g' →
      (middle.mem.icache dp).inum = d → (filesOn world).Attached d → filesOn world d = some node →
      node.type = T_DIR →
      Declines (refused d name) (Scarce 3 world.mem.refs) failure world (inside dp name) middle) :
    Declines (∀ d name, (filesOn world).resolve world.mem.cwdInum path.bytes true = some (d, name) →
        refused d name) (Scarce 3 world.mem.refs) failure world (do
      match ← nameiparent path.bytes with
      | none => return failure
      | some (dp, name) => inside dp name) world := by
  unfold Declines nameiparent
  rw [Prog.wp_bind]
  apply (quietly (namex_walks intact forest attached)).mono
  intro result middle walks
  cases result with
  | none =>
      obtain ⟨missing, g', stays⟩ := walks
      refine ⟨fun _ => ⟨rfl, stays.rests⟩, fun goes => absurd ?_ goes⟩
      intro d name leads
      exact absurd (missing.symm.trans leads) (Option.some_ne_none _).symm
  | some pair =>
      obtain ⟨dp, name⟩ := pair
      obtain ⟨d, g', leads, below, inum, stays⟩ := walks
      obtain ⟨node, isNode, isDir⟩ := Files.resolve_parent leads
      have same : (∀ d name, (filesOn world).resolve world.mem.cwdInum path.bytes true =
          some (d, name) → refused d name) ↔ refused d name := by
        constructor
        · exact fun refuses => refuses d name leads
        · intro refuses d' name' leads'
          cases leads.symm.trans leads'
          exact refuses
      rw [same]
      exact declines (Files.resolve_fits leads) stays inum below isNode isDir

theorem xv6fsCreate_declines (type major minor : BitVec 16) :
    Declines (CreateRefused world path.bytes type) (Scarce 3 world.mem.refs) none world
      (xv6fsCreate path.bytes type major minor) world := by
  rw [xv6fsCreate_eq]
  exact parent_declines intact forest attached fun _ stays inum below isNode isDir =>
    createIn_declines forest stays inum below isNode isDir type major minor

theorem xv6fsUnlink_declines :
    Declines (UnlinkRefused world path.bytes) (Scarce 3 world.mem.refs) (-1) world
      (xv6fsUnlink path.bytes) world := by
  rw [xv6fsUnlink_eq]
  exact parent_declines intact forest attached fun fits stays inum below isNode isDir =>
    unlinkIn_declines forest stays inum below isNode isDir fits

end Paths

/-! ## Calls -/

/-- The caller has a descriptor left. -/
def FreeDescriptor (world : FsWorld) : Prop :=
  ∃ fd ∈ (List.finRange NOFILE).drop 3, (world.mem.table.currentProcess.ofiles fd).ip = none

/-- Opening is refused: there is no file, or no descriptor. -/
def OpenRefused (world : FsWorld) (path : List Byte) (flags : BitVec 32) : Prop :=
  (if hasFlag flags O_CREAT then CreateRefused world path T_FILE else inumAt world path = none) ∨
    ¬ FreeDescriptor world

/-- Changing the working directory is refused: there is no directory. -/
def ChdirRefused (world : FsWorld) (path : List Byte) : Prop :=
  ∀ n ∈ inumAt world path, ∀ node ∈ filesOn world n, node.type ≠ T_DIR

/-- The calls that are refused; a null path is. -/
def Refused (world : FsWorld) : Call → Prop
  | .openFile path flags => ∀ place ∈ path, OpenRefused world place.bytes flags
  | .chdir path => ∀ place ∈ path, ChdirRefused world place.bytes
  | .mkdir path => ∀ place ∈ path, CreateRefused world place.bytes T_DIR
  | .unlink path => ∀ place ∈ path, UnlinkRefused world place.bytes
  | _ => False

/-- The path starts below the root. -/
def Below (world : FsWorld) (path : Option CString) : Prop :=
  ∀ place ∈ path, (filesOn world).Attached (Files.startOf world.mem.cwdInum place.bytes)

/-- The calls with a path.  `open` that may create or truncate needs a descriptor, for which it only
looks at the end. -/
def PathCall (world : FsWorld) : Call → Prop
  | .openFile path flags => Below world path ∧
      (FreeDescriptor world ∨ hasFlag flags O_CREAT = false ∧ hasFlag flags O_TRUNC = false)
  | .chdir path | .mkdir path | .unlink path => Below world path
  | _ => False

section Calls

variable {world : FsWorld} {g : Ghost} {extra : Nat → Nat} (intact : Intact world g)
  (forest : (filesOn world).Forest extra)

/-- Nothing has happened. -/
theorem Rests.refl (holding : Fs.Holding ∅ world.mem) : Rests world world where
  files := rfl
  table := rfl
  cwd _ := id
  cwdInum := rfl
  sb := rfl
  mounted := rfl
  refs := (add_sub_cancel_right _ _).symm
  unlocked := holding

/-- A call without a path. -/
theorem declines_null {refused full : Prop} (isRefused : refused) (holding : Fs.Holding ∅ world.mem) :
    Declines refused full (-1 : Int) world (return -1) world :=
  declines_of_rests isRefused ⟨rfl, .refl holding⟩

/-- What is done after a success does not matter. -/
theorem goes_on {α : Type} {program : FsM α} {result : Int} (succeeds : result ≠ -1)
    {middle : FsWorld} : (do
      let _ ← program
      return result).wp (fun _ => True) (fun _ _ => True) (fun r _ => r ≠ -1) middle := by
  rw [Prog.wp_bind]
  exact (Prog.wp_trivial _ _).mono fun _ _ _ => succeeds

/-- What `open` does with the inode it has found. -/
def openWith (ip : Slot) (flags : BitVec 32) : FsM Int := do
  match ← freeFd with
  | none =>
      when (hasFlag flags O_CREAT = true) (iunlock ip)
      iput ip
      return -1
  | some fd =>
      setOfile fd ⟨some ip, 0, flags⟩
      when (hasFlag flags O_CREAT = true) (iunlock ip)
      return (fd : Nat)

theorem sysOpen_eq (path : CString) (flags : BitVec 32) : sysOpen (some path) flags = (do
    match ← openInode path flags with
    | none => return -1
    | some ip => openWith ip flags) := rfl

/-- The search for a descriptor. -/
theorem freeFd_finds {P : Disk → Prop} {F : Stop → FsWorld → Prop} {middle : FsWorld}
    (table : middle.mem.table = world.mem.table) : freeFd.wp P F
      (fun found after => after = middle ∧ (found = none ↔ ¬ FreeDescriptor world)) middle := by
  unfold freeFd
  simp only [Prog.wp_bind, Prog.wp_getMem, Prog.wp_pure]
  refine ⟨trivial, ?_⟩
  rw [table, List.find?_eq_none]
  simp [FreeDescriptor]

/-- With a descriptor left, an inode is opened. -/
theorem openWith_goes {middle : FsWorld} {ip : Slot} {flags : BitVec 32}
    (table : middle.mem.table = world.mem.table) (free : FreeDescriptor world) :
    (openWith ip flags).wp (fun _ => True) (fun _ _ => True) (fun r _ => r ≠ -1) middle := by
  unfold openWith
  rw [Prog.wp_bind]
  apply (freeFd_finds table).mono
  rintro found _ ⟨rfl, search⟩
  cases found with
  | none => exact absurd free (search.mp rfl)
  | some fd =>
      have notFailed : ((fd : Nat) : Int) ≠ -1 := by omega
      dsimp only
      rw [Prog.wp_bind]
      exact (Prog.wp_trivial _ _).mono fun _ _ _ => goes_on notFailed

include intact forest

/-- `open` with `O_CREAT`. -/
theorem openCreating_declines {place : CString} {flags : BitVec 32}
    (below : Below world (some place)) (free : FreeDescriptor world)
    (creates : hasFlag flags O_CREAT = true) :
    Declines (CreateRefused world place.bytes T_FILE) (Scarce 3 world.mem.refs) (-1) world
      (sysOpen (some place) flags) world := by
  rw [sysOpen_eq]
  unfold openInode Declines
  rw [if_pos creates]
  simp only [Prog.wp_bind]
  apply ((xv6fsCreate_declines intact forest (below place rfl) T_FILE 0 0).and
    (xv6fsCreate_owes world)).conseq (fun _ both => both.1) (fun _ _ both => both.1)
  rintro result after ⟨⟨refuses, goes⟩, table, -⟩
  cases result with
  | none => exact ⟨fun refused => ⟨rfl, (refuses refused).2⟩, fun not => absurd rfl (goes not)⟩
  | some ip =>
      have isMade : ¬ CreateRefused world place.bytes T_FILE :=
        fun refused => Option.some_ne_none ip (refuses refused).1
      rw [← Prog.wp_bind]
      apply declines_of_goes isMade
      simp only [Prog.wp_bind, Prog.wp_pure]
      have keeps : Takes (when (hasFlag flags O_TRUNC = true) (truncate ip)) fun _ => 0 :=
        .when fun _ => truncate_takes
      apply (keeps after).mono
      rintro _ cut ⟨same, -⟩
      exact openWith_goes ((congrArg Prod.snd same).trans table) free

/-- `open` without `O_CREAT`. -/
theorem openExisting_declines {place : CString} {flags : BitVec 32}
    (below : Below world (some place)) (creates : hasFlag flags O_CREAT = false)
    (quiet : FreeDescriptor world ∨ hasFlag flags O_TRUNC = false) :
    Declines (inumAt world place.bytes = none ∨ ¬ FreeDescriptor world) (Scarce 3 world.mem.refs)
      (-1) world (sysOpen (some place) flags) world := by
  rw [sysOpen_eq]
  unfold openInode Declines
  rw [if_neg (by simp [creates])]
  simp only [Prog.wp_bind]
  apply (quietly (namei_names intact forest (below place rfl))).mono
  intro found middle names
  cases found with
  | none =>
      obtain ⟨missing, g', stays⟩ := names
      exact ⟨fun _ => ⟨rfl, stays.rests⟩, fun goes => absurd (Or.inl missing) goes⟩
  | some ip =>
      obtain ⟨n, g', leads, attached, inum, stays⟩ := names
      have isThere : inumAt world place.bytes ≠ none := by
        rw [leads]
        exact Option.some_ne_none n
      cases resets : hasFlag flags O_TRUNC with
      | true =>
          have free := quiet.resolve_right (by simp [resets])
          rw [← Prog.wp_bind]
          apply declines_of_goes (by tauto)
          simp only [Prog.wp_bind, Prog.wp_pure]
          have keeps : Takes (when (true = true) do
              ilock ip
              truncate ip
              iunlock ip) fun _ => 0 :=
            .when fun _ => .bind_zero ilock_takes fun _ => .bind_zero truncate_takes fun _ => iunlock_takes
          apply (keeps middle).mono
          rintro _ cut ⟨same, -⟩
          exact openWith_goes ((congrArg Prod.snd same).trans stays.table) free
      | false =>
          simp only [when, Bool.false_eq_true, if_false, Prog.wp_bind, Prog.wp_pure]
          unfold openWith
          rw [Prog.wp_bind]
          apply (freeFd_finds stays.table).mono
          rintro found _ ⟨rfl, search⟩
          cases found with
          | none =>
              apply declines_of_rests (Or.inr (search.mp rfl))
              simp only [when, creates, Bool.false_eq_true, if_false, Prog.wp_bind, Prog.wp_pure]
              apply (stays.iput le_rfl (Set.notMem_empty ip) inum attached).mono
              rintro _ final ⟨g'', stays', -⟩
              rw [sub_self] at stays'
              exact ⟨trivial, stays'.rests⟩
          | some fd =>
              have free : FreeDescriptor world := by
                by_contra none
                exact absurd (search.mpr none) (Option.some_ne_none fd)
              have notFailed : ((fd : Nat) : Int) ≠ -1 := by omega
              apply declines_of_goes (by tauto)
              dsimp only
              rw [Prog.wp_bind]
              exact (Prog.wp_trivial _ _).mono fun _ _ _ => goes_on notFailed

theorem sysOpen_declines {path : Option CString} {flags : BitVec 32} (below : Below world path)
    (quiet : FreeDescriptor world ∨
      hasFlag flags O_CREAT = false ∧ hasFlag flags O_TRUNC = false) :
    Declines (Refused world (.openFile path flags)) (Scarce 3 world.mem.refs) (-1) world
      (sysOpen path flags) world := by
  cases path with
  | none => exact declines_null nofun intact.holding
  | some place =>
      cases creates : hasFlag flags O_CREAT with
      | true =>
          have free := quiet.resolve_right (by simp [creates])
          have same : Refused world (.openFile (some place) flags) ↔
              CreateRefused world place.bytes T_FILE := by
            simp [Refused, OpenRefused, creates, free]
          rw [same]
          exact openCreating_declines intact forest below free creates
      | false =>
          have same : Refused world (.openFile (some place) flags) ↔
              inumAt world place.bytes = none ∨ ¬ FreeDescriptor world := by
            simp [Refused, OpenRefused, creates]
          rw [same]
          exact openExisting_declines intact forest below creates (quiet.imp_right And.right)

theorem sysMkdir_declines {path : Option CString} (below : Below world path) :
    Declines (Refused world (.mkdir path)) (Scarce 3 world.mem.refs) (-1) world (sysMkdir path)
      world := by
  cases path with
  | none => exact declines_null nofun intact.holding
  | some place =>
      have same : Refused world (.mkdir (some place)) ↔ CreateRefused world place.bytes T_DIR := by
        simp [Refused]
      rw [same]
      unfold sysMkdir Declines
      rw [Prog.wp_bind]
      apply (xv6fsCreate_declines intact forest (below place rfl) T_DIR 0 0).mono
      rintro result after ⟨refuses, goes⟩
      cases result with
      | none => exact ⟨fun refused => ⟨rfl, (refuses refused).2⟩, fun not => absurd rfl (goes not)⟩
      | some ip =>
          have isMade : ¬ CreateRefused world place.bytes T_DIR :=
            fun refused => Option.some_ne_none ip (refuses refused).1
          apply declines_of_goes isMade
          dsimp only
          rw [Prog.wp_bind]
          exact (Prog.wp_trivial _ _).mono fun _ _ _ => goes_on (by decide)

theorem sysUnlink_declines {path : Option CString} (below : Below world path) :
    Declines (Refused world (.unlink path)) (Scarce 3 world.mem.refs) (-1) world (sysUnlink path)
      world := by
  cases path with
  | none => exact declines_null nofun intact.holding
  | some place =>
      have same : Refused world (.unlink (some place)) ↔ UnlinkRefused world place.bytes := by
        simp [Refused]
      rw [same]
      exact xv6fsUnlink_declines intact forest (below place rfl)

theorem sysChdir_declines {path : Option CString} (below : Below world path) :
    Declines (Refused world (.chdir path)) (Scarce 3 world.mem.refs) (-1) world (sysChdir path)
      world := by
  cases path with
  | none => exact declines_null nofun intact.holding
  | some place =>
      have same : Refused world (.chdir (some place)) ↔ ChdirRefused world place.bytes := by
        simp [Refused]
      rw [same]
      unfold sysChdir Declines
      rw [Prog.wp_bind]
      apply (quietly (namei_names intact forest (below place rfl))).mono
      intro found middle names
      cases found with
      | none =>
          obtain ⟨missing, g', stays⟩ := names
          have refused : ChdirRefused world place.bytes := by
            rw [ChdirRefused, missing]
            exact nofun
          exact ⟨fun _ => ⟨rfl, stays.rests⟩, fun goes => absurd refused goes⟩
      | some ip =>
          obtain ⟨n, g', leads, attached, inum, stays⟩ := names
          simp only [Prog.wp_bind]
          apply (quietly (stays.visit inum attached)).mono
          intro _ locked visits
          have isFile := visits.stays.node visits.caches
          have refused_iff : ChdirRefused world place.bytes ↔ (g'.view n).type ≠ T_DIR := by
            simp [ChdirRefused, leads, isFile]
          simp only [getInode, Prog.wp_bind, Prog.wp_getMem, Prog.wp_pure,
            visits.caches.din visits.stays.firm.sound]
          split
          · next notDir =>
            apply declines_of_rests (refused_iff.mpr notDir)
            simp only [Prog.wp_bind, Prog.wp_pure]
            apply visits.leave
            intro final rests
            exact ⟨trivial, rests⟩
          · next isDir =>
            apply declines_of_goes fun refused => isDir (refused_iff.mp refused)
            rw [Prog.wp_bind]
            exact (Prog.wp_trivial _ _).mono fun _ _ _ => goes_on (by decide)

/-- Every call with a path declines what is refused. -/
theorem call_declines {call : Call} (isPath : PathCall world call) :
    Declines (Refused world call) (Scarce 3 world.mem.refs) (-1) world (syscallHandler call)
      world := by
  cases call with
  | openFile path flags => exact sysOpen_declines intact forest isPath.1 isPath.2
  | chdir path => exact sysChdir_declines intact forest isPath
  | mkdir path => exact sysMkdir_declines intact forest isPath
  | unlink path => exact sysUnlink_declines intact forest isPath
  | _ => exact isPath.elim

end Calls

/-- A refusal is silent. -/
theorem Declines.silent {α : Type} {refused full : Prop} {failure : α} {world : FsWorld}
    {program : FsM α} (declines : Declines refused full failure world program world)
    (isRefused : refused) :
    Silent (OnlyFull full) (fun value after => value = failure ∧ Rests world after)
      (program.run world) :=
  silent_of_wp (declines.conseq (fun _ goes => goes isRefused) (fun _ _ stops => stops isRefused)
    fun _ _ refuses => refuses.1 isRefused)

/-- With room in the inode table a refused call returns. -/
theorem perform_refused {world : FsWorld} {g : Ghost} {extra : Nat → Nat} (intact : Intact world g)
    (forest : (filesOn world).Forest extra) {call : Call} (isPath : PathCall world call)
    (refused : Refused world call) (room : ¬ Scarce 3 world.mem.refs)
    (running : world.mem.table.currentProcess.state = .running) :
    ∃ next, perform (.call call) world = some next ∧ Rests world next := by
  have ends := ((call_declines intact forest isPath).silent refused).ends
  unfold perform afterRun
  dsimp only
  rw [if_pos running]
  cases result : (syscallHandler call).run world with
  | mk outcome next writes =>
      rw [result] at ends
      cases outcome with
      | stop reason => exact absurd ends.2 room
      | ret value => exact ⟨next, rfl, ends.2⟩

end Notux.Sys
