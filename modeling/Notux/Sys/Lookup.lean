import Notux.Fs.Lookup
import Notux.Sys.Namespace

/-!
# Requests that leave everything as it is

What lies below the root is pinned: the entries of a directory below the root lead to inodes below
the root, and each of these has a link, so that walking past it does not free it.  Locks and
references come and go there, and nothing else happens; the only panic on the way is that of a full
inode table.
-/

namespace Notux.Sys

open Notux.Store Notux.Proc Notux.Fs

/-! ## What lies below the root is pinned -/

section Pinning

variable {world : FsWorld} {g : Ghost} {extra : Nat → Nat} (intact : Intact world g)
  (forest : (filesOn world).Forest extra)

/-- The ghost state that counts on what lies below the root, and on directories of whole entries. -/
def pinning (world : FsWorld) (g : Ghost) : Ghost :=
  { g with pinned := {i | (filesOn world).Attached i}, aligned := True }

include intact forest

theorem firm_pinning : Firm ∅ world (pinning world g) where
  idle := ⟨intact.idle.dirty, intact.idle.detached⟩
  aligned := trivial
  counted := intact.counted
  holding := intact.holding
  sound :=
    { laid := intact.sound.laid
      sameSb := intact.sound.sameSb
      mounted := intact.sound.mounted
      cache := ⟨intact.sound.cache.unique, intact.sound.cache.inRange, intact.sound.cache.cached,
        intact.sound.cache.holds⟩
      store := ⟨intact.sound.store.lags, intact.sound.store.clean⟩
      blocks := ⟨intact.sound.blocks.marks, intact.sound.blocks.metadata,
        intact.sound.blocks.inside,
        fun i p owns =>
          intact.sound.blocks.points i p ⟨owns.inRange, owns.allocated, owns.attached⟩,
        fun b i p tag attached =>
          have owned := intact.sound.blocks.owned b i p tag attached
          ⟨⟨owned.1.inRange, owned.1.allocated, owned.1.attached⟩, owned.2⟩,
        intact.sound.blocks.credit⟩
      files := by
        intro i owns
        have before : g.Owns i := ⟨owns.inRange, owns.allocated, owns.attached⟩
        have file := intact.sound.files i before
        refine ⟨file.small, file.full, fun isDir => ?_⟩
        have found : filesOn world i = some ((g.view i).node world.disk) := by
          rw [← intact.files_eq]
          exact before.files
        refine ⟨fun _ => (forest.listed i _ found isDir).whole, ?_⟩
        intro off aligned inside inUse
        refine ⟨((file.entries isDir).2 off aligned inside inUse).1, fun attached => ?_⟩
        apply forest.attached_names attached
        refine ⟨_, off, found, isDir, ⟨aligned, inside⟩, ?_, rfl⟩
        exact fun zero => inUse (congrArg BitVec.toNat zero)
      pinned := by
        intro i attached
        obtain ⟨node, found, -⟩ := forest.attached_node attached
        rw [← intact.files_eq] at found
        have owns := (intact.idle.owns_of_files found).1
        exact ⟨owns.inRange, owns.allocated, owns.attached⟩
      base := Set.empty_subset _ }

theorem linked_pinning : PinnedLinked world (pinning world g) := by
  intro j attached node found
  obtain ⟨node', found', linked⟩ := forest.attached_node attached
  have same : g.files world.disk j = some node := found
  rw [intact.files_eq, found'] at same
  cases same
  exact linked

end Pinning

/-! ## Locks and references come and go -/

/-- Everything is as it was, but for locks and references held on inodes below the root, and for
the working directory, which the bridge sets when it is first asked for. -/
structure Stays (world : FsWorld) (locks : Set Slot) (owed : Slot → Int) (middle : FsWorld)
    (g : Ghost) : Prop where
  firm : Firm locks middle g
  linked : PinnedLinked middle g
  pinned : ∀ {i}, (filesOn world).Attached i → i ∈ g.pinned
  files : filesOn middle = filesOn world
  table : middle.mem.table = world.mem.table
  cwd : ∀ ip, world.mem.cwd = some ip → middle.mem.cwd = some ip
  cwdInum : middle.mem.cwdInum = world.mem.cwdInum
  sb : middle.mem.sb = world.mem.sb
  mounted : middle.mem.xv6fsMounted = world.mem.xv6fsMounted
  refs : middle.mem.refs = world.mem.refs + oneOf middle.mem.cwd - oneOf world.mem.cwd + owed
  covered : oneOf world.mem.cwd ≤ world.mem.refs
  nonneg : 0 ≤ owed

section Steps

variable {full : Prop} {world middle : FsWorld} {locks locks' : Set Slot} {owed : Slot → Int}
  {g : Ghost} {ip : Slot} {n : Nat} (stays : Stays world locks owed middle g)

include stays

/-- The references that are owed, and the one of the working directory, are held. -/
theorem Stays.held : oneOf middle.mem.cwd + owed ≤ g.held := by
  intro other
  have same : g.held other = (world.mem.refs + oneOf middle.mem.cwd - oneOf world.mem.cwd + owed) other := by
    rw [stays.firm.counted, stays.refs]
  have covered : oneOf world.mem.cwd other ≤ world.mem.refs other := stays.covered other
  simp only [Pi.add_apply, Pi.sub_apply] at same ⊢
  omega

theorem Stays.inUse (has : 0 < owed ip) : 0 < (middle.mem.icache ip).ref := by
  have held : (oneOf middle.mem.cwd + owed) ip ≤ g.held ip := stays.held ip
  have more : 0 ≤ oneOf middle.mem.cwd ip := nonneg_oneOf middle.mem.cwd ip
  have count : g.held ip = (middle.mem.icache ip).ref := congrFun stays.firm.counted ip
  rw [Pi.add_apply] at held
  omega

/-- What one step leaves. -/
theorem Stays.step {floor delta : Slot → Int} {after : FsWorld} {g' : Ghost}
    (moves : Moves ∅ floor 0 middle g (g.files middle.disk) (g.held + delta) after g')
    (holding : Fs.Holding locks' after.mem) (sameCwd : after.mem.cwd = middle.mem.cwd)
    (sameTable : after.mem.table = middle.mem.table) (floors : oneOf middle.mem.cwd ≤ floor)
    (nonneg : 0 ≤ owed + delta) : Stays world locks' (owed + delta) after g' where
  firm := stays.firm.moves moves holding
  linked := pinnedLinked_of_moves stays.linked moves
  pinned attached := moves.pinned ▸ stays.pinned attached
  files := by
    rw [← files_eq_filesOn moves.sound moves.idle, moves.files,
      files_eq_filesOn stays.firm.sound stays.firm.idle, stays.files]
  table := sameTable.trans stays.table
  cwd old isOld := sameCwd.trans (stays.cwd old isOld)
  cwdInum := by
    rw [← stays.cwdInum]
    apply cwdInum_of_keeps moves.keeps sameCwd
    intro cwd isCwd
    have above : oneOf middle.mem.cwd cwd ≤ floor cwd := floors cwd
    rw [isCwd, oneOf_some, one_self] at above
    omega
  sb := by rw [← stays.sb, moves.sound.sameSb, moves.sb, stays.firm.sound.sameSb]
  mounted := by rw [← stays.mounted, moves.sound.mounted, stays.firm.sound.mounted]
  refs := by
    rw [← (stays.firm.moves moves holding).counted, moves.held, stays.firm.counted, stays.refs,
      sameCwd, add_assoc]
  covered := stays.covered
  nonneg := nonneg

/-- Few free entries have been few before. -/
theorem Stays.scarce (one_more : owed = one ip) (few : Scarce 1 g.held) :
    Scarce 3 world.mem.refs := by
  rw [stays.firm.counted, stays.refs, one_more] at few
  cases before : world.mem.cwd with
  | some old =>
      rw [stays.cwd old before, before, add_sub_cancel_right] at few
      exact Nat.lt_succ_of_lt (scarce_one ip few)
  | none =>
      rw [before] at few
      cases now : middle.mem.cwd with
      | none =>
          rw [now] at few
          exact Nat.lt_succ_of_lt (scarce_one ip (by simpa [oneOf] using few))
      | some cwd =>
          rw [now] at few
          exact scarce_one cwd (scarce_one ip (by simpa [oneOf] using few))

theorem Stays.ilock (free : ip ∉ locks) (has : 0 < owed ip)
    (inum : (middle.mem.icache ip).inum = n) (attached : (filesOn world).Attached n) :
    (ilock ip).wp (fun _ => False) (OnlyFull full) (fun _ after =>
      Stays world (insert ip locks) owed after g ∧ Caches after ip n ∧
        Keeps owed middle.mem after.mem) middle := by
  apply (ilock_takes.frame (ilock_only_full stays.firm free (stays.inUse has) inum
    (stays.pinned attached))).mono
  rintro _ after ⟨⟨loads, holding⟩, sameCwd, sameTable⟩
  have moves := loads.moves stays.firm.idle (oneOf middle.mem.cwd)
  rw [← add_zero g.held] at moves
  refine ⟨?_, loads.caches, loads.keeps owed⟩
  have same := stays.step moves holding sameCwd sameTable le_rfl ((add_zero owed).symm ▸ stays.nonneg)
  rwa [add_zero] at same

theorem Stays.iput (has : one ip ≤ owed) (free : ip ∉ locks)
    (inum : (middle.mem.icache ip).inum = n) (attached : (filesOn world).Attached n) :
    (iput ip).wp (fun _ => False) (OnlyFull full) (fun _ after => ∃ g',
      Stays world locks (owed - one ip) after g' ∧ Keeps (owed - one ip) middle.mem after.mem)
      middle := by
  apply (iput_takes.frame (iput_only_full stays.linked inum (stays.pinned attached) stays.firm
    free)).mono
  rintro _ after ⟨⟨g', moves, holding⟩, sameCwd, sameTable⟩
  have held := stays.held
  have floors : oneOf middle.mem.cwd ≤ g.held - one ip :=
    le_sub_iff_add_le.mpr ((add_le_add_right has _).trans held)
  have below : owed - one ip ≤ g.held - one ip :=
    sub_le_sub_right ((le_add_of_nonneg_left (nonneg_oneOf _)).trans held) _
  refine ⟨g', ?_, moves.keeps.mono below⟩
  have nonneg : 0 ≤ owed + -one ip := by
    rw [← sub_eq_add_neg]
    exact sub_nonneg.mpr has
  rw [sub_eq_add_neg owed]
  apply stays.step _ holding sameCwd sameTable floors nonneg
  rwa [← sub_eq_add_neg]

end Steps

section Unlocking

variable {full : Prop} {world middle : FsWorld} {locks : Set Slot} {owed : Slot → Int} {g : Ghost}
  {ip : Slot} {n : Nat}

theorem Stays.iunlock (stays : Stays world (insert ip locks) owed middle g) (free : ip ∉ locks) :
    (iunlock ip).wp (fun _ => False) (OnlyFull full) (fun _ after =>
      Stays world locks owed after g ∧ Keeps owed middle.mem after.mem) middle := by
  apply (iunlock_takes.frame (iunlock_only_full stays.firm free)).mono
  rintro _ after ⟨⟨unlocks, holding⟩, sameCwd, sameTable⟩
  have moves := unlocks.moves stays.firm.idle (oneOf middle.mem.cwd)
  rw [← add_zero g.held] at moves
  have same := stays.step moves holding sameCwd sameTable le_rfl ((add_zero owed).symm ▸ stays.nonneg)
  rw [add_zero] at same
  exact ⟨same, keeps_of_sameEntries unlocks.same owed⟩

/-- Unlocking an inode and giving it back. -/
theorem Stays.iunlockput (stays : Stays world (insert ip locks) owed middle g) (free : ip ∉ locks)
    (has : one ip ≤ owed) (inum : (middle.mem.icache ip).inum = n)
    (attached : (filesOn world).Attached n) :
    (iunlockput ip).wp (fun _ => False) (OnlyFull full) (fun _ after => ∃ g',
      Stays world locks (owed - one ip) after g' ∧ Keeps (owed - one ip) middle.mem after.mem)
      middle := by
  unfold Fs.iunlockput
  rw [Prog.wp_bind]
  apply (stays.iunlock free).mono
  rintro _ unlocked ⟨stays', keeps⟩
  have positive : 0 < owed ip := by
    have own : one ip ip ≤ owed ip := has ip
    rw [one_self] at own
    omega
  apply (stays'.iput has free ((keeps ip positive).1.trans inum) attached).mono
  rintro _ after ⟨g', stays'', keeps'⟩
  exact ⟨g', stays'', (keeps.mono (sub_one_le _ _)).trans keeps'⟩

/-- The two calls of `iunlockput` written out. -/
theorem Stays.release (stays : Stays world (insert ip locks) owed middle g) (free : ip ∉ locks)
    (has : one ip ≤ owed) (inum : (middle.mem.icache ip).inum = n)
    (attached : (filesOn world).Attached n) {Q : Unit → FsWorld → Prop}
    (rest : ∀ after g', Stays world locks (owed - one ip) after g' →
      Keeps (owed - one ip) middle.mem after.mem → Q () after) :
    (Fs.iunlock ip).wp (fun _ => False) (OnlyFull full) (fun _ unlocked =>
      (Fs.iput ip).wp (fun _ => False) (OnlyFull full) Q unlocked) middle := by
  rw [← Prog.wp_bind]
  apply Prog.wp.mono (stays.iunlockput free has inum attached)
  rintro _ after ⟨g', stays', keeps⟩
  exact rest after g' stays' keeps

/-- The entry of the inode table shows the file. -/
theorem Stays.node (stays : Stays world locks owed middle g) (caches : Caches middle ip n) :
    filesOn world n = some ((g.view n).node middle.disk) := by
  have owns := caches.owns stays.firm.sound (stays.firm.idle.attached n)
  rw [← stays.files, ← files_eq_filesOn stays.firm.sound stays.firm.idle]
  exact owns.files

/-- The invariant of operations that change files. -/
theorem Stays.stands (stays : Stays world locks owed middle g) : Stands locks middle { g with pinned := ∅ } where
  idle := ⟨stays.firm.idle.dirty, stays.firm.idle.detached⟩
  unpinned := rfl
  holding := stays.firm.holding
  sound :=
    { laid := stays.firm.sound.laid
      sameSb := stays.firm.sound.sameSb
      mounted := stays.firm.sound.mounted
      cache := ⟨stays.firm.sound.cache.unique, stays.firm.sound.cache.inRange,
        stays.firm.sound.cache.cached, stays.firm.sound.cache.holds⟩
      store := ⟨stays.firm.sound.store.lags, stays.firm.sound.store.clean⟩
      blocks := ⟨stays.firm.sound.blocks.marks, stays.firm.sound.blocks.metadata,
        stays.firm.sound.blocks.inside,
        fun i p owns =>
          stays.firm.sound.blocks.points i p ⟨owns.inRange, owns.allocated, owns.attached⟩,
        fun b i p tag attached =>
          have owned := stays.firm.sound.blocks.owned b i p tag attached
          ⟨⟨owned.1.inRange, owned.1.allocated, owned.1.attached⟩, owned.2⟩,
        stays.firm.sound.blocks.credit⟩
      files := by
        intro i owns
        have file := stays.firm.sound.files i ⟨owns.inRange, owns.allocated, owns.attached⟩
        refine ⟨file.small, file.full, fun isDir => ⟨(file.entries isDir).1, ?_⟩⟩
        intro off aligned inside inUse
        exact ⟨((file.entries isDir).2 off aligned inside inUse).1, nofun⟩
      pinned := nofun
      base := Set.empty_subset _ }

/-- What `dirlookup` leaves in directory `d`. -/
def LooksUp (world : FsWorld) (locks : Set Slot) (owed : Slot → Int) (d : Nat) (name : List Byte)
    (middle : FsWorld) (found : Option (Slot × Nat)) (after : FsWorld) : Prop :=
  match found with
  | none => (filesOn world).find d name = none ∧ after = middle
  | some (ip, off) => ∃ n g', (filesOn world).find d name = some n ∧
      (∀ node ∈ filesOn world d, node.IsEntry off) ∧
      (filesOn world).Attached n ∧ (after.mem.icache ip).inum = n ∧
      Stays world locks (owed + one ip) after g' ∧ Keeps owed middle.mem after.mem

theorem Stays.dirlookup {d : Nat} {dp : Slot} {name : List Byte} {extra : Nat → Nat}
    (forest : (filesOn world).Forest extra) (stays : Stays world locks owed middle g)
    (caches : Caches middle dp d) (attached : (filesOn world).Attached d) {node : Node}
    (isNode : filesOn world d = some node) (isDir : node.type = T_DIR)
    (scarce : Scarce 1 g.held → full) :
    (dirlookup dp name).wp (fun _ => False) (OnlyFull full)
      (LooksUp world locks owed d name middle) middle := by
  have owns := caches.owns stays.firm.sound (stays.firm.idle.attached d)
  have isView : node = (g.view d).node middle.disk :=
    Option.some.inj (isNode.symm.trans (stays.node caches))
  have isDir' : (g.view d).type = T_DIR := by
    rw [isView] at isDir
    exact isDir
  apply (dirlookup_takes.frame (dirlookup_only_full stays.firm caches owns isDir' scarce)).mono
  rintro found after ⟨⟨⟨looked, first⟩, holding⟩, sameCwd, sameTable⟩
  rw [← isView] at looked first
  have answer : (filesOn world).find d name = found.map fun pair => node.inumAt pair.2 := by
    rw [Files.find_eq isNode, Node.answer, ← first, Option.map_map]
    rfl
  cases found with
  | none => exact ⟨answer, looked.1⟩
  | some pair =>
      obtain ⟨ip, off⟩ := pair
      obtain ⟨entry, names, gets⟩ := looked
      have below : owed ≤ g.held :=
        (le_add_of_nonneg_left (nonneg_oneOf _)).trans stays.held
      have cwdBelow : oneOf middle.mem.cwd ≤ g.held :=
        (le_add_of_nonneg_right stays.nonneg).trans stays.held
      refine ⟨_, g.hold (g.held + one ip), answer, ?_, ?_, gets.inum, ?_,
        gets.moves.keeps.mono below⟩
      · intro other isOther
        cases isNode.symm.trans isOther
        exact entry
      · apply forest.attached_names attached
        exact ⟨node, off, isNode, isDir, entry, names.1, rfl⟩
      · exact stays.step gets.moves holding sameCwd sameTable cwdBelow
          (add_nonneg stays.nonneg (nonneg_one ip))

end Unlocking

/-! ## Walks -/

section Walks

variable {world : FsWorld} {g : Ghost} {extra : Nat → Nat} (intact : Intact world g)
  (forest : (filesOn world).Forest extra)

/-- What a walk leaves. -/
def WalksTo (world : FsWorld) (path : List Byte) (parent : Bool)
    (result : Option (Slot × List Byte)) (after : FsWorld) : Prop :=
  match result with
  | none => (filesOn world).resolve world.mem.cwdInum path parent = none ∧
      ∃ g', Stays world ∅ 0 after g'
  | some (ip, name) => ∃ n g',
      (filesOn world).resolve world.mem.cwdInum path parent = some (n, name) ∧
      (filesOn world).Attached n ∧ (after.mem.icache ip).inum = n ∧ Stays world ∅ (one ip) after g'

include intact forest

/-- A path from below the root is walked as the files say. -/
theorem namex_walks {path : List Byte} {parent : Bool}
    (attached : (filesOn world).Attached (Files.startOf world.mem.cwdInum path)) :
    (namex path parent).wp (fun _ => False) (OnlyFull (Scarce 3 world.mem.refs))
      (WalksTo world path parent) world := by
  have firm := firm_pinning intact forest
  have linked := linked_pinning intact forest
  have nonneg : 0 ≤ g.held := (nonneg_oneOf _).trans intact.cwd
  have scarce : Scarce 3 g.held → Scarce 3 world.mem.refs := by
    rw [intact.counted]
    exact id
  apply ((namex_only_full firm linked nonneg intact.root intact.cwdHeld attached scarce).and
    (namex_spec (P := fun _ => True) (F := fun _ _ => True) (fun _ _ _ => trivial) (fun _ => trivial)
      ⟨fun _ _ _ => trivial, fun _ _ => ⟨trivial, trivial⟩⟩ intact.sound intact.idle
      intact.unpinned nonneg intact.root (fun _ _ => id) intact.cwdHeld)).conseq
        (fun _ both => both.1) fun _ _ both => both.1
  rintro result after ⟨⟨⟨g', moves, holding, found⟩, sameCwd⟩, ⟨-, -, -, -, expected⟩, table, cwdInum⟩
  rw [intact.files_eq] at expected
  have firm' := firm.moves moves holding
  have stays : Stays world ∅ (walked result) after g' := by
    constructor
    · exact firm'
    · exact pinnedLinked_of_moves linked moves
    · exact fun attached => moves.pinned ▸ attached
    · rw [← files_eq_filesOn moves.sound moves.idle, moves.files,
        files_eq_filesOn firm.sound firm.idle]
    · exact table
    · exact sameCwd
    · exact cwdInum
    · rw [moves.sound.sameSb, moves.sb, firm.sound.sameSb]
    · rw [moves.sound.mounted, firm.sound.mounted]
    · rw [← firm'.counted, moves.held, ← firm.counted]
    · rw [← intact.counted]
      exact intact.cwd
    · exact nonneg_oneOf _
  cases result with
  | none => exact ⟨expected.symm, g', stays⟩
  | some pair =>
      obtain ⟨ip, name⟩ := pair
      exact ⟨_, g', expected.symm, found _ rfl, rfl, stays⟩

/-- The file that a path names. -/
def inumAt (world : FsWorld) (path : List Byte) : Option Nat :=
  ((filesOn world).resolve world.mem.cwdInum path false).map Prod.fst

/-- What `namei` leaves. -/
def Names (world : FsWorld) (path : List Byte) (result : Option Slot) (after : FsWorld) : Prop :=
  match result with
  | none => inumAt world path = none ∧ ∃ g', Stays world ∅ 0 after g'
  | some ip => ∃ n g', inumAt world path = some n ∧ (filesOn world).Attached n ∧
      (after.mem.icache ip).inum = n ∧ Stays world ∅ (one ip) after g'

theorem namei_names {path : List Byte}
    (attached : (filesOn world).Attached (Files.startOf world.mem.cwdInum path)) :
    (namei path).wp (fun _ => False) (OnlyFull (Scarce 3 world.mem.refs)) (Names world path)
      world := by
  unfold namei
  rw [Prog.wp_bind]
  apply (namex_walks intact forest attached).mono
  intro result after walks
  cases result with
  | none => exact ⟨congrArg (Option.map Prod.fst) walks.1, walks.2⟩
  | some pair =>
      obtain ⟨ip, name⟩ := pair
      obtain ⟨n, g', leads, rest⟩ := walks
      exact ⟨n, g', congrArg (Option.map Prod.fst) leads, rest⟩

end Walks

/-- Nothing has changed, but that the working directory may have been set to the root, and a
reference been taken to it. -/
structure Rests (world after : FsWorld) : Prop where
  files : filesOn after = filesOn world
  table : after.mem.table = world.mem.table
  cwd : ∀ ip, world.mem.cwd = some ip → after.mem.cwd = some ip
  cwdInum : after.mem.cwdInum = world.mem.cwdInum
  sb : after.mem.sb = world.mem.sb
  mounted : after.mem.xv6fsMounted = world.mem.xv6fsMounted
  refs : after.mem.refs = world.mem.refs + oneOf after.mem.cwd - oneOf world.mem.cwd
  unlocked : Fs.Holding ∅ after.mem

/-- With nothing owed everything is as it was. -/
theorem Stays.rests {world after : FsWorld} {g : Ghost} (stays : Stays world ∅ 0 after g) :
    Rests world after where
  files := stays.files
  table := stays.table
  cwd := stays.cwd
  cwdInum := stays.cwdInum
  sb := stays.sb
  mounted := stays.mounted
  refs := by rw [stays.refs, add_zero]
  unlocked := stays.firm.holding

theorem Rests.trans {world middle after : FsWorld} (first : Rests world middle)
    (second : Rests middle after) : Rests world after where
  files := second.files.trans first.files
  table := second.table.trans first.table
  cwd ip isCwd := second.cwd ip (first.cwd ip isCwd)
  cwdInum := second.cwdInum.trans first.cwdInum
  sb := second.sb.trans first.sb
  mounted := second.mounted.trans first.mounted
  refs := by
    rw [second.refs, first.refs]
    abel
  unlocked := second.unlocked

/-! ## Visiting an inode -/

section Visiting

variable {full : Prop} {world middle : FsWorld} {g : Ghost} {ip : Slot} {n : Nat}

/-- One inode is locked, and everything else is as it was. -/
structure Visits (world : FsWorld) (n : Nat) (ip : Slot) (middle : FsWorld) (g : Ghost) : Prop where
  stays : Stays world (insert ip ∅) (one ip) middle g
  caches : Caches middle ip n
  attached : (filesOn world).Attached n

/-- A reference, seen from its count. -/
theorem one_pos (ip : Slot) : 0 < one ip ip := by
  rw [one_self]
  exact Int.one_pos

theorem Stays.visit (stays : Stays world ∅ (one ip) middle g)
    (inum : (middle.mem.icache ip).inum = n) (attached : (filesOn world).Attached n) :
    (Fs.ilock ip).wp (fun _ => False) (OnlyFull full) (fun _ locked => Visits world n ip locked g)
      middle := by
  apply (stays.ilock (Set.notMem_empty ip) (one_pos ip) inum attached).mono
  rintro _ locked ⟨stays', caches, -⟩
  exact ⟨stays', caches, attached⟩

/-- The visit ends. -/
theorem Visits.leave (visits : Visits world n ip middle g) {Q : Unit → FsWorld → Prop}
    (rest : ∀ after, Rests world after → Q () after) :
    (iunlock ip).wp (fun _ => False) (OnlyFull full) (fun _ unlocked =>
      (iput ip).wp (fun _ => False) (OnlyFull full) Q unlocked) middle := by
  apply visits.stays.release (Set.notMem_empty ip) le_rfl visits.caches.inum visits.attached
  intro after g' stays _
  rw [sub_self] at stays
  exact rest after stays.rests

end Visiting

end Notux.Sys
