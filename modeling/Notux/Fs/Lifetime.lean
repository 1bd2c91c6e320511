import Notux.Fs.Truncate

/-!
# Allocation and release of inodes

`ialloc` turns a free inode into an empty file without links.  `iput` gives a
reference back; an inode without links goes with its last reference.
-/

namespace Notux.Fs

open Notux.Store Notux.Proc

/-- Whether giving a reference back frees the inode. -/
def Kernel.Frees (kernel : Kernel) (ip : Slot) : Prop :=
  (kernel.icache ip).valid = true ∧ (kernel.icache ip).din.nlink = 0 ∧ (kernel.icache ip).ref = 1

instance (kernel : Kernel) (ip : Slot) : Decidable (kernel.Frees ip) :=
  inferInstanceAs (Decidable (_ ∧ _ ∧ _))

/-- An inode that has just been allocated. -/
def Dinode.fresh (type : BitVec 16) : Dinode := { Dinode.zero with type }

/-- The file behind an inode that has just been allocated. -/
def Node.fresh (type : BitVec 16) : Node := ⟨type, 0, 0, 0, 0, fun _ => 0⟩

section Release

variable {base : Set Nat} {world : FsWorld} {g : Ghost} {n : Nat} {ip : Slot}
  {P : Disk → Prop} {F : Stop → FsWorld → Prop}

/-- One reference less. -/
theorem Sound.dropRef (sound : Sound base world g) :
    Sound base
      { world with mem := world.mem.setInode ip fun inode => { inode with ref := inode.ref - 1 } }
      (g.hold (g.held - one ip)) := by
  have inUse : 0 < (world.mem.icache ip).ref - 1 → 0 < (world.mem.icache ip).ref :=
    fun _ => by omega
  refine sound.recache rfl rfl (sound.cache.setInode rfl (fun _ _ _ => rfl) ?_ ?_ ?_ ?_)
  · exact fun left other => sound.cache.apart (inUse left)
  · exact fun left => sound.cache.inRange ip (inUse left)
  · exact fun left => sound.cache.cached ip (inUse left)
  · rw [sub_eq_add_neg]
    refine hold_le_setInode sound.cache.holds ?_ fun other differ => ?_
    · have below := sound.cache.holds ip
      rw [Pi.neg_apply, one_self]
      change _ ≤ (world.mem.icache ip).ref - 1
      omega
    · rw [Pi.neg_apply, one_of_ne differ]
      exact le_refl _

theorem nonneg_one (ip other : Slot) : 0 ≤ one ip other := by
  by_cases same : other = ip
  · rw [same, one_self]
    omega
  · rw [one_of_ne same]

theorem sub_one_le (held : Slot → Int) (ip : Slot) : held - one ip ≤ held := by
  intro other
  have nonneg := nonneg_one ip other
  change held other - one ip other ≤ held other
  omega

/-- The last steps of `iput`. -/
theorem dropRef_spec (benign : ∀ reason world, Stop.Benign reason → F reason world)
    (sound : Sound base world g) (idle : g.Idle) :
    (do
      releasesleep ip
      acquire
      modifyInode ip fun inode => { inode with ref := inode.ref - 1 }
      release : FsM Unit).wp P F
      (fun _ after => ∃ g', Moves base (g.held - one ip) 0 world g (g.files world.disk)
        (g.held - one ip) after g') world := by
  simp only [Prog.wp_bind, modifyInode, Prog.wp_modifyMem]
  refine (releasesleep_spec benign sound).mono fun _ first unlocked => ?_
  refine (acquire_spec benign unlocked.sound).mono fun _ second locked => ?_
  refine (release_spec benign locked.sound.dropRef).mono fun _ after released => ?_
  refine ⟨_, released.sound.moves_hold idle
    (released.disk.trans (locked.disk.trans unlocked.disk)) ?_ ?_⟩
  have dropped : Keeps (g.held - one ip) second.mem
      (second.mem.setInode ip fun inode => { inode with ref := inode.ref - 1 }) := by
    refine keeps_setInode fun above => ⟨rfl, id, fun _ => ?_⟩
    have below := locked.sound.cache.holds ip
    rw [Pi.sub_apply, one_self] at above
    simp only
    omega
  · exact (((keeps_of_sameEntries unlocked.same _).trans
      (keeps_of_sameEntries locked.same _)).trans dropped).trans
        (keeps_of_sameEntries released.same _)
  · have counted : (second.mem.setInode ip fun inode =>
        { inode with ref := inode.ref - 1 }).refs = second.mem.refs + Pi.single ip (-1) :=
      refs_setInode _ _ _ _ (sub_eq_add_neg _ _)
    rw [refs_of_sameEntries released.same, counted, refs_of_sameEntries locked.same,
      refs_of_sameEntries unlocked.same, Pi.single_neg, ← sub_eq_add_neg]
    exact sub_sub_sub_cancel_right _ _ _

variable (safe : ∀ world g, Sound base world g → P world.disk)
  (benign : ∀ reason world, Stop.Benign reason → F reason world)
  (sound : Sound base world g) (idle : g.Idle)

include safe sound idle

/-- The steps of `iput` that free the inode. -/
theorem freeInode_spec (caches : Caches world ip n) (last : (world.mem.icache ip).ref = 1)
    (unpinned : n ∉ g.pinned) :
    (do
      itrunc ip
      modifyInode ip (·.mapDin ({ · with type := 0 }))
      iupdate ip
      modifyInode ip fun inode => { inode with valid := false } : FsM Unit).wp P F
      (fun _ after => ∃ g', Moves base (g.held - one ip) 0 world g
        (Function.update (g.files world.disk) n none) g.held after g') world := by
  have owns := caches.owns sound (idle.attached n)
  simp only [Prog.wp_bind, modifyInode, Prog.wp_modifyMem]
  refine (itrunc_spec safe sound idle caches owns unpinned).mono ?_
  rintro _ middle ⟨g', cachesStill, untagged, truncated⟩
  have moves := truncated (g.held - one ip)
  have inRange : n < g'.sb.ninodes := by
    rw [moves.sb]
    exact owns.inRange
  have unpinnedStill : n ∉ g'.pinned := moves.pinned ▸ unpinned
  have slots := sameSlots_setDin middle.mem ip ({ · with type := 0 })
  have inUse : 0 < (middle.mem.icache ip).ref := cachesStill.inUse
  have collapse : (middle.mem.setInode ip (·.mapDin ({ · with type := 0 }))).setInode ip
        (fun inode => { inode with valid := false }) =
      middle.mem.setInode ip
        fun inode => { inode with din := { inode.din with type := 0 }, valid := false } := by
    simp [Kernel.setInode, Inode.mapDin]
  have cached : ((middle.mem.setInode ip (·.mapDin ({ · with type := 0 }))).icache ip).din =
      { g'.view n with type := 0 } := by
    simp [Kernel.setInode, Inode.mapDin, cachesStill.din moves.sound]
  have cache : CacheSound (middle.mem.setInode ip
        fun inode => { inode with din := { inode.din with type := 0 }, valid := false })
      (g'.put n { g'.view n with type := 0 }) := by
    refine moves.sound.cache.setInode rfl (fun other differ otherInUse => ?_)
      (fun _ other => moves.sound.cache.apart inUse)
      (fun _ => moves.sound.cache.inRange ip inUse) (by rintro _ ⟨⟩)
      (moves.sound.cache.holds_setInode rfl)
    have apart := moves.sound.cache.apart inUse differ otherInUse
    rw [cachesStill.inum] at apart
    exact put_view_of_ne _ apart _
  have gone : ¬ (g'.put n { g'.view n with type := 0 }).Owns n := fun owned =>
    owned.allocated (by rw [put_view_self])
  have points : (g'.put n { g'.view n with type := 0 }).Owns n → ∀ p, p.Valid fileShape →
      ({ g'.view n with type := 0 } : Dinode).blockAt middle.disk p ≠ 0 →
      g'.tag (({ g'.view n with type := 0 } : Dinode).blockAt middle.disk p) = .owned n p :=
    fun owned => absurd owned gone
  have owned : ∀ b p, g'.tag b = .owned n p →
      (g'.put n { g'.view n with type := 0 }).Owns n ∧ p.Valid fileShape ∧
        ({ g'.view n with type := 0 } : Dinode).blockAt middle.disk p = b :=
    fun b p tag => absurd tag (untagged b p)
  have before := moves.sound.blocks_put (moves.idle.only n) points owned
  have sameSb : (middle.mem.setInode ip
      fun inode => { inode with din := { inode.din with type := 0 }, valid := false }).sb =
    middle.mem.sb := rfl
  have stored := moves.sound.put inRange (moves.idle.only n) sameSb moves.sound.mounted cache
    points owned (fun owned => absurd owned gone) fun member => absurd member unpinnedStill
  have files := moves.sound.files_put inRange before
  have kernelSb : (middle.mem.setInode ip (·.mapDin ({ · with type := 0 }))).sb = g'.sb :=
    moves.sound.sameSb
  refine iupdate_wp kernelSb ((slots ip).2.1.trans cachesStill.inum) ?_ ?_
  · rw [cached]
    exact safe _ _ stored
  · rw [cached, collapse]
    refine ⟨g'.put n { g'.view n with type := 0 }, ?_⟩
    have entered : Keeps (g.held - one ip) middle.mem (middle.mem.setInode ip
        fun inode => { inode with din := { inode.din with type := 0 }, valid := false }) := by
      refine keeps_setInode fun above => ?_
      have below := sound.cache.holds ip
      rw [Pi.sub_apply, one_self] at above
      omega
    exact
      { sound := stored
        sb := moves.sb
        aligned := moves.aligned
        credit := moves.credit
        taken := moves.taken
        settled := moves.settled
        idle := ⟨rfl, rfl⟩
        keeps := moves.keeps.trans entered
        refs := by
          rw [← moves.refs]
          refine congrArg (· - _) (funext fun other => ?_)
          by_cases same : other = ip
          · simp [Kernel.refs, Kernel.setInode, same]
          · simp [Kernel.refs, Kernel.setInode, same]
        files := by rw [files, if_pos rfl, moves.files, Function.update_idem]
        held := moves.held
        pinned := moves.pinned }

include benign

/-- `iput` gives a reference back. -/
theorem iput_spec (inum : (world.mem.icache ip).inum = n)
    (unpinned : world.mem.Frees ip → n ∉ g.pinned) :
    (iput ip).wp P F
      (fun _ after => ∃ g', Moves base (g.held - one ip) 0 world g
        (if world.mem.Frees ip then Function.update (g.files world.disk) n none
          else g.files world.disk) (g.held - one ip) after g') world := by
  -- the reference goes in any case
  have finish : ∀ {files : Files} {middle : FsWorld} {g' : Ghost},
      Moves base (g.held - one ip) 0 world g files g.held middle g' →
      (do
        releasesleep ip
        acquire
        modifyInode ip fun inode => { inode with ref := inode.ref - 1 }
        release : FsM Unit).wp P F
        (fun _ after => ∃ g', Moves base (g.held - one ip) 0 world g files (g.held - one ip)
          after g') middle := by
    intro files middle g' moves
    refine (dropRef_spec benign moves.sound moves.idle).mono ?_
    rintro _ after ⟨g'', dropped⟩
    rw [moves.held, moves.files] at dropped
    exact ⟨g'', moves.trans dropped⟩
  unfold iput
  rw [Prog.wp_bind]
  refine (acquiresleep_spec benign sound).mono fun _ locked locks => ?_
  have entry := locks.same ip
  simp only [Prog.wp_bind, getInode, Prog.wp_getMem, Prog.wp_pure]
  rw [entry.2.2.1, entry.2.2.2]
  unfold when
  split
  · next unlinked =>
    simp only [Prog.wp_bind, Prog.wp_getMem, Prog.wp_pure]
    refine (acquire_spec benign locks.sound).mono fun _ acquired acquires => ?_
    refine (release_spec benign acquires.sound).mono fun _ released releases => ?_
    have moves := (((locks.moves idle (g.held - one ip)).trans
      (acquires.moves idle _)).trans (releases.moves idle _))
    rw [acquires.disk, locks.disk] at moves
    rw [(acquires.same ip).1, entry.1]
    split
    · next last =>
      have frees : world.mem.Frees ip := ⟨unlinked.1, unlinked.2, last⟩
      rw [if_pos frees]
      have caches : Caches world ip n := ⟨by omega, unlinked.1, inum⟩
      have cachesStill := releases.caches (acquires.caches (locks.caches caches))
      have lastStill : (released.mem.icache ip).ref = 1 := by
        rw [(releases.same ip).1, (acquires.same ip).1, entry.1]
        exact last
      refine (freeInode_spec safe moves.sound idle cachesStill lastStill (unpinned frees)).mono ?_
      rintro _ freed ⟨g', frees'⟩
      rw [moves.files] at frees'
      simpa only [Prog.wp_bind] using finish (moves.trans frees')
    · next more =>
      rw [if_neg fun frees => more frees.2.2]
      simpa only [Prog.wp_bind, Prog.wp_pure] using finish moves
  · next linked =>
    rw [if_neg fun frees => linked ⟨frees.1, frees.2.1⟩]
    simpa only [Prog.wp_bind, Prog.wp_pure] using finish (locks.moves idle _)

theorem iunlockput_spec (inum : (world.mem.icache ip).inum = n)
    (unpinned : world.mem.Frees ip → n ∉ g.pinned) :
    (iunlockput ip).wp P F
      (fun _ after => ∃ g', Moves base (g.held - one ip) 0 world g
        (if world.mem.Frees ip then Function.update (g.files world.disk) n none
          else g.files world.disk) (g.held - one ip) after g') world := by
  unfold iunlockput
  rw [Prog.wp_bind]
  refine (iunlock_spec benign sound).mono fun _ unlocked locks => ?_
  have entry := locks.same ip
  have frees : unlocked.mem.Frees ip ↔ world.mem.Frees ip := by
    unfold Kernel.Frees
    rw [entry.1, entry.2.2.1, entry.2.2.2]
  refine (iput_spec safe benign locks.sound idle (entry.2.1.trans inum)
    fun last => unpinned (frees.mp last)).mono ?_
  rintro _ after ⟨g', moves⟩
  rw [locks.disk] at moves
  simp only [frees] at moves
  exact ⟨g', (locks.moves idle _).trans moves⟩

/-! ## Allocation -/

omit safe benign idle in
/-- A free inode that is not cached may be put into view. -/
theorem CacheSound.put_free (free : (g.view n).type = 0) (din : Dinode) :
    CacheSound world.mem (g.put n din) := by
  refine ⟨sound.cache.unique, sound.cache.inRange, fun ip inUse valid => ?_, sound.cache.holds⟩
  obtain ⟨cached, allocated⟩ := sound.cache.cached ip inUse valid
  have differ : (world.mem.icache ip).inum ≠ n := fun same => allocated (same ▸ free)
  rw [put_view_of_ne g differ]
  exact ⟨cached, allocated⟩

/-- The file that `ialloc` makes; an inode of type 0 stays free. -/
def Node.claimed (type : BitVec 16) : Option Node := if type = 0 then none else some (.fresh type)

/-- `ialloc` returns a reference to an empty file that did not exist before. -/
theorem iallocLoop_spec {type : BitVec 16} {fuel inum : Nat} (positive : 0 < inum) :
    (iallocLoop g.sb type fuel inum).wp P F
      (fun ip after => ∃ n g', 0 < n ∧ n < g.sb.ninodes ∧ g.files world.disk n = none ∧
        0 < (after.mem.icache ip).ref ∧ (after.mem.icache ip).inum = n ∧
        Moves base g.held 0 world g
          (Function.update (g.files world.disk) n (Node.claimed type))
          (g.held + one ip) after g') world := by
  induction fuel generalizing inum with
  | zero => exact benign _ _ trivial
  | succ fuel ih =>
      unfold iallocLoop
      split
      · next inRange =>
        simp only [Prog.wp_bind, Prog.wp_bread, Prog.wp_data]
        intro slot
        have stored : dinodeAt (world.disk (iblock g.sb inum)) (inum % IPB) = g.view inum :=
          sound.store.clean inum inRange (idle.attached inum) (by rw [idle.dirty]; rintro ⟨⟩)
        rw [stored]
        split
        · next free =>
          have bare : (Dinode.fresh type).Bare := rfl
          have notOwned : ¬ g.Owns inum := fun owns => owns.allocated free
          have points : (g.put inum (.fresh type)).Owns inum →
              ∀ p, p.Valid fileShape →
              (Dinode.fresh type).blockAt world.disk p ≠ 0 →
              g.tag ((Dinode.fresh type).blockAt world.disk p) =
                .owned inum p :=
            fun _ p _ present => absurd (bare.blockAt _ _) present
          have owned : ∀ b p, g.tag b = .owned inum p →
              (g.put inum (.fresh type)).Owns inum ∧ p.Valid fileShape ∧
                (Dinode.fresh type).blockAt world.disk p = b :=
            fun b p tag =>
              absurd (sound.blocks.owned b inum p tag (idle.attached inum)).1 notOwned
          have before := sound.blocks_put (idle.only inum) points owned
          have created := sound.put inRange (idle.only inum) rfl sound.mounted
            (CacheSound.put_free sound free _) points owned
            (fun _ => .of_empty (by rw [put_view_self]; rfl))
            fun member => absurd (sound.pinned inum member) notOwned
          have files := sound.files_put inRange before
          have node : (Dinode.fresh type).node world.disk = .fresh type := by
            unfold Dinode.node
            rw [bare.content]
            rfl
          rw [node] at files
          change _ = Function.update (g.files world.disk) inum (Node.claimed type) at files
          simp only [Prog.wp_bind, Prog.wp_logWrite, brelse, Prog.wp_pure]
          refine ⟨safe _ _ created, ?_⟩
          refine (iget_spec benign created ⟨rfl, rfl⟩ inRange).mono fun ip after gets => ?_
          refine ⟨inum, (g.put inum (.fresh type)).hold (g.held + one ip), positive, inRange,
            if_neg fun both => both.2 free, gets.inUse, gets.inum, ?_⟩
          have moves := gets.moves
          rw [files] at moves
          exact { moves with }
        · exact ih (by omega)
      · exact benign _ _ trivial

theorem ialloc_spec {type : BitVec 16} :
    (ialloc type).wp P F
      (fun ip after => ∃ n g', 0 < n ∧ n < g.sb.ninodes ∧ g.files world.disk n = none ∧
        0 < (after.mem.icache ip).ref ∧ (after.mem.icache ip).inum = n ∧
        Moves base g.held 0 world g
          (Function.update (g.files world.disk) n (Node.claimed type))
          (g.held + one ip) after g') world := by
  unfold ialloc
  simp only [Prog.wp_bind, Prog.wp_getMem]
  rw [if_pos sound.mounted, sound.sameSb]
  exact iallocLoop_spec safe benign sound idle (by omega)

end Release

end Notux.Fs
