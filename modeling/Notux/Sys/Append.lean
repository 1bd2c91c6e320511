import Notux.Sys.Positions

/-!
# Appending to a file

A write through a descriptor with `O_APPEND` takes the size of the file as its place, after it
has locked the inode.  So whatever positions the descriptors have kept, writes follow each
other in the file in the order in which the calls were made.
-/

namespace Notux.Sys

open Notux.Store Notux.Proc Notux.Fs

/-! ## One write at the end of a file -/

/-- The bytes of a file. -/
def contentOf (node : Node) : List Byte := node.slice 0 node.size.toNat

theorem length_contentOf (node : Node) : (contentOf node).length = node.size.toNat := by
  simp [contentOf, Node.slice]

/-- What a write took from the caller's buffer. -/
def taken (buf : Nat → Byte) (r : Int) : List Byte := (List.range r.toNat).map buf

theorem length_taken (buf : Nat → Byte) (r : Int) : (taken buf r).length = r.toNat := by
  simp [taken]

/-- A write at the end of a regular file adds to its content what it took. -/
theorem contentOf_write {node : Node} (regular : node.type = T_FILE)
    (small : node.size.toNat ≤ MAXFILE * BSIZE) (buf : Nat → Byte) {m : Nat} (few : m < 2 ^ 32) :
    (node.write buf node.size.toNat m).2.type = T_FILE ∧
      contentOf (node.write buf node.size.toNat m).2 =
        contentOf node ++ taken buf (node.write buf node.size.toNat m).1 := by
  have bound : MAXFILE * BSIZE < 2 ^ 31 := by decide
  unfold Node.write
  rw [if_neg (by rw [regular]; decide)]
  by_cases refused : node.size.toNat > node.size.toNat ∨
      (node.size.toNat + m) % 2 ^ 32 < node.size.toNat
  · rw [if_pos refused]
    exact ⟨regular, by simp [taken]⟩
  · rw [if_neg refused]
    by_cases long : node.size.toNat + m > MAXFILE * BSIZE
    · rw [if_pos long]
      exact ⟨regular, by simp [taken]⟩
    · rw [if_neg long]
      refine ⟨regular, ?_⟩
      have size : (if node.size.toNat + m > node.size.toNat then
          BitVec.ofNat 32 (node.size.toNat + m) else node.size).toNat =
          node.size.toNat + m := by
        split
        · rw [BitVec.toNat_ofNat, Nat.mod_eq_of_lt (by omega)]
        · omega
      unfold contentOf taken
      dsimp only
      rw [size, ← slice_append, Nat.zero_add, toInt32_eq (by omega), Int.toNat_natCast]
      congr 1
      · refine List.map_congr_left fun i member => ?_
        have below := List.mem_range.mp member
        exact if_neg (by omega)
      · refine List.map_congr_left fun i member => ?_
        have below := List.mem_range.mp member
        refine (if_pos (by omega)).trans ?_
        rw [Nat.add_sub_cancel_left]

section Writing

variable {world : FsWorld} {g : Ghost} {fd : Fin NOFILE} {ip : Slot}

/-- Storing an inode that is already stored changes no file. -/
theorem iupdate_again {n : Nat} (sound : Sound ∅ world g) (idle : g.Idle)
    (caches : Caches world ip n) :
    (iupdate ip).wp (fun _ => True) (fun _ _ => True)
      (fun _ after => ∃ g', ∀ floor, Moves ∅ floor 0 world g (g.files world.disk) g.held after g')
      world := by
  have owns := caches.owns sound (idle.attached n)
  have same : world.mem.setInode ip (·.mapDin id) = world.mem := by
    simp [Kernel.setInode, Inode.mapDin]
  have spec : (iupdate ip).wp (fun _ => True) (fun _ _ => True)
      (fun _ after => ∃ g', Caches after ip n ∧ ∀ floor, Moves ∅ floor 0 world g
        (Function.update (g.files world.disk) n (some ((id (g.view n)).node world.disk)))
        g.held after g')
      { world with mem := world.mem.setInode ip (·.mapDin id) } :=
    setFields_spec (fun _ _ _ => trivial) sound (idle.only n) caches owns rfl owns.allocated
      ((sound.files n owns).fields rfl rfl rfl)
  rw [same] at spec
  refine spec.mono ?_
  rintro _ after ⟨g', -, moves⟩
  refine ⟨g', fun floor => ?_⟩
  have still := moves floor
  rwa [id, ← owns.files, Function.update_eq_self] at still

/-- What a write through a descriptor with `O_APPEND` does. -/
structure Appended (world : FsWorld) (g : Ghost) (fd : Fin NOFILE) (ip : Slot)
    (buf : Nat → Byte) (r : Int) (after : FsWorld) (g' : Ghost) : Prop where
  sound : Sound ∅ after g'
  idle : g'.Idle
  owns : g.Owns (world.mem.icache ip).inum
  files : ∃ node, node.type = T_FILE ∧
    contentOf node = contentOf ((g.view (world.mem.icache ip).inum).node world.disk) ++
      taken buf r ∧
    g'.files after.disk =
      Function.update (g.files world.disk) (world.mem.icache ip).inum (some node)
  table : after.mem.table = if r > 0 then
      world.mem.table.modify world.mem.table.current fun process =>
        { process with
          ofiles := Function.update process.ofiles fd { ofileOf world fd with
            offset := ((g.view (world.mem.icache ip).inum).size.toNat + r.toNat) % 2 ^ 32 } }
    else world.mem.table

theorem sysWrite_appended (sound : Sound ∅ world g) (idle : g.Idle)
    (isOpen : (ofileOf world fd).ip = some ip) (mayWrite : MayWrite (ofileOf world fd).flags)
    (append : hasFlag (ofileOf world fd).flags O_APPEND = true)
    (regular : (lockedDin world ip).type = T_FILE) (above : 1 ≤ (fd : Nat)) (bufNull : Bool)
    (buf : Nat → Byte) (count : Nat) :
    Prog.Run.Ends (fun _ _ => True)
      (fun r after => ∃ g', Appended world g fd ip buf r after g')
      ((sysWrite fd bufNull buf count).run world) := by
  unfold sysWrite
  rw [openFile_eq isOpen above]
  dsimp only
  rw [if_neg (by rintro ⟨notWrite, notBoth⟩; rcases mayWrite with may | may <;> simp_all)]
  apply Prog.wp.run (P := fun _ => True)
  simp only [Prog.wp_bind, append, if_true]
  have loads := ilock_spec (P := fun _ => True) (F := fun _ _ => True) (fun _ _ _ => trivial)
    sound idle (rfl : (world.mem.icache ip).inum = _) fun _ _ => trivial
  apply (ilock_locks.and loads).conseq (fun _ _ => trivial) fun _ _ _ => trivial
  rintro _ locked ⟨holds, loads⟩
  have owns := loads.caches.owns loads.sound (idle.attached _)
  have view : g.view (world.mem.icache ip).inum = lockedDin world ip :=
    (loads.caches.din loads.sound).symm.trans holds.din
  unfold getInode
  simp only [Prog.wp_bind, Prog.wp_getMem, Prog.wp_pure, holds.din, ← view]
  have isFile : ((g.view (world.mem.icache ip).inum).node locked.disk).type = T_FILE := by
    rw [← view] at regular
    exact regular
  have notDir : ∀ node : Node, node.type = T_FILE → node.type ≠ T_DIR := by
    intro node isFile
    rw [isFile]
    decide
  have few : count % 2 ^ 32 < 2 ^ 32 := Nat.mod_lt _ (by decide)
  obtain ⟨stays, content⟩ := contentOf_write isFile (loads.sound.files _ owns).small buf few
  have writes := writei_spec (P := fun _ => True) (F := fun _ _ => True) (fun _ _ _ => trivial)
    loads.caches few loads.sound idle owns (fun _ _ _ _ _ => trivial)
    (fun _ _ _ _ => .of_notDir (notDir _ isFile)) (.of_notDir (notDir _ stays))
  apply (writei_takes.frame writes).mono
  rintro r written ⟨⟨rfl, g', caches, moves⟩, -, sameTable⟩
  have written' := moves 0
  apply (iupdate_takes.frame (iupdate_again written'.sound written'.idle caches)).mono
  rintro _ stored ⟨⟨g'', again⟩, -, sameTable'⟩
  have stored' := again 0
  apply (iunlock_takes.frame (iunlock_spec (P := fun _ => True) (F := fun _ _ => True)
    (fun _ _ _ => trivial) stored'.sound)).mono
  rintro _ after ⟨unlocks, -, sameTable''⟩
  have table : after.mem.table = world.mem.table :=
    sameTable''.trans (sameTable'.trans (sameTable.trans holds.table))
  have files : g''.files after.disk = Function.update (g.files world.disk)
      (world.mem.icache ip).inum (some (((g.view (world.mem.icache ip).inum).node locked.disk).write
        buf (g.view (world.mem.icache ip).inum).size.toNat (count % 2 ^ 32)).2) := by
    rw [unlocks.disk, stored'.files, written'.files, loads.disk]
    rfl
  unfold when
  split
  · next moved =>
    refine ⟨g'', ?_, stored'.idle, owns, ⟨_, stays, ?_, files⟩, ?_⟩
    · exact unlocks.sound.sameEntries (sameEntries_refl _) rfl rfl
    · rw [← loads.disk]
      exact content
    · rw [if_pos moved, ← table]
      rfl
  · next still =>
    refine ⟨g'', unlocks.sound, stored'.idle, owns, ⟨_, stays, ?_, files⟩, ?_⟩
    · rw [← loads.disk]
      exact content
    · rw [if_neg still, table]

end Writing

/-! ## Descriptors across a switch -/

theorem ofiles_modify (table : ProcTable) (idx other : ProcIdx) {change : Process → Process}
    (same : (change (table.processes idx)).ofiles = (table.processes idx).ofiles) :
    ((table.modify idx change).processes other).ofiles = (table.processes other).ofiles := by
  by_cases differ : other = idx
  · rw [differ, table.modify_same, same]
  · rw [table.modify_of_ne differ]

/-- A switch between processes changes no descriptor. -/
theorem ofiles_schedule (table : ProcTable) (currentEsp : Nat) (idx : ProcIdx) :
    ((table.schedule currentEsp).2.processes idx).ofiles = (table.processes idx).ofiles := by
  have saved : ((table.saveCurrent currentEsp).processes idx).ofiles =
      (table.processes idx).ofiles := by
    unfold ProcTable.saveCurrent
    split
    · exact ofiles_modify table _ idx rfl
    · rfl
  have suspended : ((table.suspend currentEsp).processes idx).ofiles =
      (table.processes idx).ofiles := by
    unfold ProcTable.suspend
    split
    · exact ofiles_modify table _ idx rfl
    · rfl
  rcases table.schedule_cases currentEsp with
    ⟨next, -, -, result⟩ | ⟨-, -, result⟩ | ⟨-, result⟩
  · rw [result]
    change (((table.suspend currentEsp).modify next fun process =>
      { process with state := .running }).processes idx).ofiles = _
    rw [ofiles_modify _ _ _ rfl, suspended]
  · rw [result]
    unfold ProcTable.keep
    rw [ofiles_modify _ _ _ rfl, saved]
  · rw [result]

/-! ## Interleaved writes -/

/-- One write: the descriptor it went through, the inode behind it and what it wrote. -/
structure Entry where
  process : ProcIdx
  fd : Fin NOFILE
  inum : Nat
  bytes : List Byte

/-- What the writes of a log have written to an inode. -/
def written (log : List Entry) (n : Nat) : List Byte :=
  log.flatMap fun entry => if entry.inum = n then entry.bytes else []

theorem written_append (log : List Entry) (entry : Entry) (n : Nat) :
    written (log ++ [entry]) n = written log n ++ if entry.inum = n then entry.bytes else [] := by
  simp [written]

/-- Runs of writes and of switches between processes, with the log of the writes.  Every write
succeeds, goes to a regular file and is made through a descriptor with `O_APPEND` and a write
mode. -/
inductive Interleaves (start : FsWorld) : List Entry → FsWorld → Prop where
  | start : Interleaves start [] start
  | timer {log : List Entry} {world next : FsWorld} {currentEsp : Nat}
      (run : Interleaves start log world)
      (performed : perform (.timer currentEsp) world = some next) : Interleaves start log next
  | write {log : List Entry} {world next : FsWorld} {fd : Fin NOFILE} {ip : Slot} {bufNull : Bool}
      {buf : Nat → Byte} {count : Nat} {r : Int} {writes : List (Nat × Block)}
      (run : Interleaves start log world)
      (running : world.mem.table.currentProcess.state = .running)
      (isOpen : (ofileOf world fd).ip = some ip) (mayWrite : MayWrite (ofileOf world fd).flags)
      (append : hasFlag (ofileOf world fd).flags O_APPEND = true)
      (regular : (lockedDin world ip).type = T_FILE)
      (returned : (sysWrite fd bufNull buf count).run world = ⟨.ret r, next, writes⟩)
      (success : 0 ≤ r) :
      Interleaves start
        (log ++ [⟨world.mem.table.current, fd, (world.mem.icache ip).inum, taken buf r⟩]) next

/-- The size that a file had at the start. -/
def sizeAt (files : Files) (n : Nat) : Nat := ((files n).map fun node => node.size.toNat).getD 0

/-- After the last write through a descriptor that counts, the descriptor stands at the end of
that write. -/
def StandsAtEnd (counts : Entry → Prop) (files : Files) (log : List Entry) (world : FsWorld) :
    Prop :=
  ∀ before entry later, log = before ++ entry :: later → counts entry →
    (∀ other ∈ later, other.process = entry.process → other.fd = entry.fd → ¬ counts other) →
    ((world.mem.table.processes entry.process).ofiles entry.fd).offset =
      sizeAt files entry.inum + (written (before ++ [entry]) entry.inum).length

/-- Every file consists of what it was and of what was written to it, in order. -/
def Grew (files : Files) (log : List Entry) (files' : Files) : Prop :=
  ∀ n, (files' n).map contentOf = (files n).map (contentOf · ++ written log n)

/-- The size of a file that has grown. -/
theorem Grew.size {files files' : Files} {log : List Entry} (grew : Grew files log files') {n : Nat}
    {node : Node} (found : files' n = some node) :
    node.size.toNat = sizeAt files n + (written log n).length := by
  have same := grew n
  rw [found] at same
  unfold sizeAt
  cases first : files n with
  | none =>
      rw [first] at same
      cases same
  | some old =>
      rw [first] at same
      have content := Option.some.inj same
      have lengths := congrArg List.length content
      rwa [length_contentOf, List.length_append, length_contentOf] at lengths

/-- A write through a standard descriptor that is not one for output fails. -/
theorem sysWrite_zero {world next : FsWorld} {bufNull : Bool} {buf : Nat → Byte} {count : Nat}
    {r : Int} {writes : List (Nat × Block)}
    (returned : (sysWrite (0 : Fin NOFILE) bufNull buf count).run world = ⟨.ret r, next, writes⟩) :
    r = -1 := by
  cases returned
  rfl

/-- The log and the state of a run agree. -/
structure Logged (start : Files) (log : List Entry) (world : FsWorld) (g : Ghost) : Prop where
  sound : Sound ∅ world g
  idle : g.Idle
  grew : Grew start log (g.files world.disk)
  stands : StandsAtEnd (·.bytes ≠ []) start log world

namespace Logged

variable {start : Files} {log : List Entry} {world next : FsWorld} {g : Ghost}
  (logged : Logged start log world g)

include logged

theorem timer {currentEsp : Nat} (performed : perform (.timer currentEsp) world = some next) :
    Logged start log next g := by
  simp only [perform] at performed
  split at performed
  · next resumed table result =>
    cases performed
    refine ⟨logged.sound.sameEntries (sameEntries_refl _) rfl rfl, logged.idle, logged.grew, ?_⟩
    intro before entry later split counts last
    have same := ofiles_schedule world.mem.table currentEsp entry.process
    rw [result] at same
    change ((table.processes entry.process).ofiles entry.fd).offset = _
    rw [same]
    exact logged.stands before entry later split counts last
  · cases performed

/-- The files after a write. -/
theorem grew_write {fd : Fin NOFILE} {ip : Slot} {buf : Nat → Byte} {r : Int} {g' : Ghost}
    (appended : Appended world g fd ip buf r next g') :
    Grew start (log ++ [⟨world.mem.table.current, fd, (world.mem.icache ip).inum, taken buf r⟩])
      (g'.files next.disk) := by
  obtain ⟨node, -, content, files⟩ := appended.files
  intro n
  rw [files, written_append]
  by_cases same : (world.mem.icache ip).inum = n
  · subst same
    have old := logged.grew (world.mem.icache ip).inum
    rw [appended.owns.files] at old
    rw [Function.update_self, Option.map_some, content, if_pos rfl]
    cases first : start (world.mem.icache ip).inum with
    | none =>
        rw [first] at old
        cases old
    | some initial =>
        rw [first] at old
        have joined : contentOf ((g.view (world.mem.icache ip).inum).node world.disk) =
            contentOf initial ++ written log (world.mem.icache ip).inum := Option.some.inj old
        rw [Option.map_some, ← List.append_assoc, ← joined]
  · rw [Function.update_of_ne (Ne.symm same), if_neg same, List.append_nil]
    exact logged.grew n

theorem stands_write {fd : Fin NOFILE} {ip : Slot} {buf : Nat → Byte} {r : Int} {g' : Ghost}
    (appended : Appended world g fd ip buf r next g') :
    StandsAtEnd (·.bytes ≠ []) start
      (log ++ [⟨world.mem.table.current, fd, (world.mem.icache ip).inum, taken buf r⟩]) next := by
  intro before entry later split counts last
  have grew := logged.grew_write appended
  obtain ⟨node, -, content, files⟩ := appended.files
  rcases List.eq_nil_or_concat later with rfl | ⟨rest, final, rfl⟩
  · obtain ⟨rfl, only⟩ := List.append_inj' split rfl
    obtain rfl := (List.cons.inj only).1
    have positive : r > 0 := by
      by_contra none
      exact counts (by simp [taken, Int.toNat_of_nonpos (Int.not_lt.mp none)])
    have size := grew.size (files ▸ Function.update_self _ _ _)
    have lengths := congrArg List.length content
    rw [length_contentOf, List.length_append, length_contentOf, length_taken] at lengths
    have bound := node.size.isLt
    rw [← size, lengths, appended.table, if_pos positive, ProcTable.modify_same]
    dsimp only
    rw [Function.update_self]
    rw [lengths] at bound
    exact Nat.mod_eq_of_lt bound
  · rw [List.concat_eq_append] at split last
    rw [← List.cons_append, ← List.append_assoc] at split
    obtain ⟨rfl, only⟩ := List.append_inj' split rfl
    obtain rfl := (List.cons.inj only).1
    have stands := logged.stands before entry rest rfl counts
      fun other member => last other (List.mem_append_left _ member)
    rw [← stands, appended.table]
    split
    · next moved =>
      by_cases sameProcess : entry.process = world.mem.table.current
      · rw [sameProcess, ProcTable.modify_same]
        dsimp only
        by_cases sameFd : entry.fd = fd
        · exfalso
          refine last _ (List.mem_append_right _ (List.mem_singleton_self _)) sameProcess.symm
            sameFd.symm ?_
          intro nothing
          have lengths := congrArg List.length nothing
          rw [length_taken, List.length_nil] at lengths
          omega
        · rw [Function.update_of_ne sameFd]
      · rw [ProcTable.modify_of_ne _ sameProcess]
    · rfl

end Logged

/-- A write that succeeds. -/
theorem Interleaves.wrote {start world : FsWorld} {log : List Entry}
    (run : Interleaves start log world) {fd : Fin NOFILE} {ip : Slot} {buf : Nat → Byte}
    {count : Nat} {r : Int} (running : world.mem.table.currentProcess.state = .running)
    (isOpen : (ofileOf world fd).ip = some ip) (mayWrite : MayWrite (ofileOf world fd).flags)
    (append : hasFlag (ofileOf world fd).flags O_APPEND = true)
    (regular : (lockedDin world ip).type = T_FILE)
    (outcome : ((sysWrite fd false buf count).run world).outcome = .ret r) (success : 0 ≤ r) :
    Interleaves start
      (log ++ [⟨world.mem.table.current, fd, (world.mem.icache ip).inum, taken buf r⟩])
      ((sysWrite fd false buf count).run world).world := by
  cases result : (sysWrite fd false buf count).run world with
  | mk ended next writes =>
      rw [result] at outcome
      have ends : ended = .ret r := outcome
      subst ends
      exact .write run running isOpen mayWrite append regular result success

/-- A descriptor that appends to the file of the small disk. -/
def appender : OFile := ⟨some 0, 0, O_WRONLY ||| O_APPEND⟩

/-- The first process has two of them, both at the start of the file. -/
def twoAppenders : FsWorld where
  disk := smallDisk
  mem := { (smallWorld appender).mem with
    icache := fun ip =>
      if ip = 0 then { Inode.vacant with inum := 2, ref := 2 } else Inode.vacant
    table := (smallTable appender).modify 0 fun process =>
      { process with ofiles := Function.update process.ofiles 4 appender } }

theorem twoAppenders_sound : Sound ∅ twoAppenders (directGhost smallSb smallDisk smallOwner) :=
  smallDisk_direct.sound rfl rfl (cacheSound_of_single 0 (show 2 < smallSb.ninodes by decide)
    (fun valid => absurd valid Bool.false_ne_true) (by decide)
    fun _ differ => congrArg Inode.ref (if_neg differ))

/-- It writes through the first one. -/
theorem appender_writes (count : Nat) (r : Int)
    (outcome : ((sysWrite 3 false (fun _ => 120) count).run twoAppenders).outcome = .ret r)
    (success : 0 ≤ r) :
    Interleaves twoAppenders [⟨0, 3, 2, taken (fun _ => 120) r⟩]
      ((sysWrite 3 false (fun _ => 120) count).run twoAppenders).world := by
  have mayWrite : MayWrite (ofileOf twoAppenders 3).flags := by
    unfold MayWrite
    decide
  have regular : (lockedDin twoAppenders 0).type = T_FILE := by decide +kernel
  exact Interleaves.wrote .start rfl rfl mayWrite (by decide) regular outcome success

/-- It has written two bytes. -/
def firstWritten : FsWorld := ((sysWrite 3 false (fun _ => 120) 2).run twoAppenders).world

theorem firstWritten_facts :
    firstWritten.mem.table.currentProcess.state = .running ∧ ofileOf firstWritten 4 = appender ∧
    (lockedDin firstWritten 0).type = T_FILE ∧ firstWritten.mem.table.current = 0 ∧
    (firstWritten.mem.icache 0).inum = 2 ∧
    ((sysWrite 4 false (fun _ => 121) 1).run firstWritten).outcome = .ret 1 := by
  decide +kernel

/-- Then it writes a third one through the second descriptor. -/
theorem twoAppenders_run :
    Interleaves twoAppenders [⟨0, 3, 2, [120, 120]⟩, ⟨0, 4, 2, [121]⟩]
      ((sysWrite 4 false (fun _ => 121) 1).run firstWritten).world := by
  obtain ⟨running, isOpen, regular, current, inum, outcome⟩ := firstWritten_facts
  have first : Interleaves twoAppenders [⟨0, 3, 2, [120, 120]⟩] firstWritten :=
    appender_writes 2 2 (by decide +kernel) (by decide)
  have mayWrite : MayWrite (ofileOf firstWritten 4).flags := by
    rw [isOpen]
    unfold MayWrite
    decide
  have append : hasFlag (ofileOf firstWritten 4).flags O_APPEND = true := by
    rw [isOpen]
    decide
  have second := first.wrote running (congrArg OFile.ip isOpen) mayWrite append regular outcome
    (by decide)
  rwa [current, inum] at second

end Notux.Sys
