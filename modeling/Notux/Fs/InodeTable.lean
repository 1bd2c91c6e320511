import Notux.Fs.Files

/-!
# References, loading and storing of inodes

`iget` and `idup` take a reference, `ilock` loads an inode, and `iupdate` stores
one.  An entry that a running function holds a reference to keeps its inode.
-/

namespace Notux.Fs

open Notux.Store Notux.Proc

/-! ## Changes of one entry -/

section Entries

variable {base : Set Nat} {world : FsWorld} {g : Ghost}

theorem hold_owns {held : Slot → Int} {i : Nat} : (g.hold held).Owns i ↔ g.Owns i :=
  ⟨fun owns => ⟨owns.inRange, owns.allocated, owns.attached⟩,
    fun owns => ⟨owns.inRange, owns.allocated, owns.attached⟩⟩

theorem hold_idle {held : Slot → Int} (idle : g.Idle) : (g.hold held).Idle :=
  ⟨idle.dirty, idle.detached⟩

/-- Changes of the inode table alone. -/
theorem Sound.recache (sound : Sound base world g) {kernel : Kernel} {held : Slot → Int}
    (sb : kernel.sb = world.mem.sb) (mounted : kernel.xv6fsMounted = world.mem.xv6fsMounted)
    (cache : CacheSound kernel (g.hold held)) :
    Sound base { world with mem := kernel } (g.hold held) where
  laid := sound.laid
  sameSb := sb.trans sound.sameSb
  mounted := mounted.trans sound.mounted
  cache := cache
  store := ⟨sound.store.lags, sound.store.clean⟩
  blocks := ⟨sound.blocks.marks, sound.blocks.metadata, sound.blocks.inside,
    fun i p owns => sound.blocks.points i p (hold_owns.mp owns),
    fun b i p tag attached => by
      obtain ⟨owns, rest⟩ := sound.blocks.owned b i p tag attached
      exact ⟨hold_owns.mpr owns, rest⟩,
    sound.blocks.credit⟩
  files i owns := by
    have file := sound.files i (hold_owns.mp owns)
    exact ⟨file.small, file.full, file.entries⟩
  pinned i member := hold_owns.mpr (sound.pinned i member)
  base := sound.base

/-- A change of the references held, and of entries that are not held. -/
theorem Sound.moves_hold {after : FsWorld} {held floor : Slot → Int}
    (sound : Sound base after (g.hold held)) (idle : g.Idle) (disk : after.disk = world.disk)
    (keeps : Keeps floor world.mem after.mem)
    (refs : after.mem.refs - held = world.mem.refs - g.held) :
    Moves base floor 0 world g (g.files world.disk) held after (g.hold held) where
  sound := sound
  sb := rfl
  aligned := rfl
  credit := Nat.le_refl _
  taken _ _ := Or.inl rfl
  settled _ := id
  idle := hold_idle idle
  keeps := keeps
  refs := refs
  files := by rw [disk]; rfl
  held := rfl
  pinned := rfl

theorem keeps_setInode {kernel : Kernel} {ip : Slot} {change : Inode → Inode}
    {floor : Slot → Int}
    (same : 0 < floor ip → (change (kernel.icache ip)).inum = (kernel.icache ip).inum ∧
      ((kernel.icache ip).valid = true → (change (kernel.icache ip)).valid = true) ∧
      (0 < (kernel.icache ip).ref → 0 < (change (kernel.icache ip)).ref)) :
    Keeps floor kernel (kernel.setInode ip change) := by
  intro other above
  by_cases atIp : other = ip
  · subst atIp
    simpa [Kernel.setInode] using same above
  · simp [Kernel.setInode, atIp]

end Entries

/-! ## The scan of the inode table -/

theorem igetScan_inl {icache : Slot → Inode} {inum : Nat} {slots : List Slot}
    {empty : Option Slot} {ip : Slot} (found : igetScan icache inum slots empty = .inl ip) :
    (icache ip).ref > 0 ∧ (icache ip).inum = inum := by
  induction slots generalizing empty with
  | nil => cases found
  | cons slot rest ih =>
      unfold igetScan at found
      split at found
      · next hit => exact Sum.inl.inj found ▸ hit
      · exact ih found

theorem igetScan_missing {icache : Slot → Inode} {inum : Nat} {slots : List Slot}
    {empty chosen : Option Slot} (found : igetScan icache inum slots empty = .inr chosen)
    {ip : Slot} (listed : ip ∈ slots) (inUse : 0 < (icache ip).ref) :
    (icache ip).inum ≠ inum := by
  induction slots generalizing empty with
  | nil => cases listed
  | cons slot rest ih =>
      unfold igetScan at found
      split at found
      · cases found
      · next miss =>
        rcases List.mem_cons.mp listed with rfl | listed
        · exact fun same => miss ⟨inUse, same⟩
        · exact ih found listed

section Operations

variable {base : Set Nat} {world : FsWorld} {g : Ghost} {P : Disk → Prop}
  {F : Stop → FsWorld → Prop} {n : Nat} {ip : Slot}

/-! ## Taking references -/

/-- A reference to inode `n` has been taken. -/
structure Gets (base : Set Nat) (n : Nat) (world : FsWorld) (g : Ghost) (ip : Slot)
    (after : FsWorld) : Prop where
  moves : Moves base g.held 0 world g (g.files world.disk) (g.held + one ip) after
    (g.hold (g.held + one ip))
  disk : after.disk = world.disk
  inUse : 0 < (after.mem.icache ip).ref
  inum : (after.mem.icache ip).inum = n

theorem one_self (ip : Slot) : one ip ip = 1 := Pi.single_eq_same _ _

theorem one_of_ne {ip other : Slot} (differ : other ≠ ip) : one ip other = 0 :=
  Pi.single_eq_of_ne differ _

theorem hold_le_setInode {kernel : Kernel} {change : Inode → Inode} {held delta : Slot → Int}
    (holds : ∀ other, held other ≤ (kernel.icache other).ref)
    (raised : held ip + delta ip ≤ (change (kernel.icache ip)).ref)
    (elsewhere : ∀ other, other ≠ ip → delta other ≤ 0) (other : Slot) :
    (held + delta) other ≤ ((kernel.setInode ip change).icache other).ref := by
  by_cases atIp : other = ip
  · subst atIp
    simpa [Kernel.setInode] using raised
  · have below := holds other
    have spare := elsewhere other atIp
    simp only [Kernel.setInode, Pi.add_apply, ne_eq, atIp, not_false_eq_true,
      Function.update_of_ne]
    omega

/-- One more reference to an entry in use. -/
theorem Sound.addRef (sound : Sound base world g) (inUse : 0 < (world.mem.icache ip).ref) :
    Sound base
      { world with mem := world.mem.setInode ip fun inode => { inode with ref := inode.ref + 1 } }
      (g.hold (g.held + one ip)) := by
  refine sound.recache rfl rfl (sound.cache.setInode rfl (fun _ _ _ => rfl) ?_ ?_ ?_ ?_)
  · exact fun _ other => sound.cache.apart inUse
  · exact fun _ => sound.cache.inRange ip inUse
  · exact fun _ => sound.cache.cached ip inUse
  · refine hold_le_setInode sound.cache.holds ?_ fun other differ => (one_of_ne differ).le
    have below := sound.cache.holds ip
    rw [one_self]
    change _ ≤ (world.mem.icache ip).ref + 1
    omega

/-- An entry without references is given to an inode that no entry caches. -/
theorem Sound.claim (sound : Sound base world g) (free : (world.mem.icache ip).ref = 0)
    (inRange : n < g.sb.ninodes)
    (fresh : ∀ other, 0 < (world.mem.icache other).ref → (world.mem.icache other).inum ≠ n) :
    Sound base
      { world with
        mem := world.mem.setInode ip fun inode =>
          { inode with inum := n, ref := 1, valid := false } }
      (g.hold (g.held + one ip)) := by
  refine sound.recache rfl rfl (sound.cache.setInode rfl (fun _ _ _ => rfl) ?_ ?_ ?_ ?_)
  · exact fun _ other _ otherInUse => fresh other otherInUse
  · exact fun _ => inRange
  · exact fun _ valid => nomatch valid
  · refine hold_le_setInode sound.cache.holds ?_ fun other differ => (one_of_ne differ).le
    have below := sound.cache.holds ip
    rw [one_self]
    change _ ≤ (1 : Int)
    omega

section References

variable (benign : ∀ reason world, Stop.Benign reason → F reason world)
  (sound : Sound base world g) (idle : g.Idle)

include benign sound idle

theorem iget_spec (inRange : n < g.sb.ninodes) :
    (iget n).wp P F (fun ip after => Gets base n world g ip after) world := by
  unfold iget
  simp only [Prog.wp_bind, Prog.wp_getMem]
  refine (acquire_spec benign sound).mono fun _ locked locks => ?_
  -- whatever entry is chosen, the lock is released and the entry returned
  have finish : ∀ ip (kernel : Kernel), kernel.sb = locked.mem.sb →
      kernel.xv6fsMounted = locked.mem.xv6fsMounted →
      Sound base { locked with mem := kernel } (g.hold (g.held + one ip)) →
      Keeps g.held locked.mem kernel → 0 < (kernel.icache ip).ref →
      (kernel.icache ip).inum = n → kernel.refs = locked.mem.refs + one ip →
      release.wp P F (fun _ after => Gets base n world g ip after)
        { locked with mem := kernel } := by
    intro ip kernel _ _ taken keeps inUse inum raised
    refine (release_spec benign taken).mono fun _ after released => ?_
    refine ⟨released.sound.moves_hold idle (released.disk.trans locks.disk) ?_ ?_,
      released.disk.trans locks.disk, ?_, (released.same ip).2.1.trans inum⟩
    · exact ((keeps_of_sameEntries locks.same _).trans keeps).trans
        (keeps_of_sameEntries released.same _)
    · rw [refs_of_sameEntries released.same, raised, refs_of_sameEntries locks.same,
        add_sub_add_right_eq_sub]
    · rw [(released.same ip).1]
      exact inUse
  cases found : igetScan locked.mem.icache n (List.finRange NINODE) none with
  | inl ip =>
      obtain ⟨inUse, inum⟩ := igetScan_inl found
      simp only [Prog.wp_bind, modifyInode, Prog.wp_modifyMem]
      refine finish ip _ rfl rfl (locks.sound.addRef inUse) ?_ ?_ ?_
        (refs_setInode _ _ _ _ rfl)
      · exact keeps_setInode fun _ => ⟨rfl, id, fun inUse => by simp only; omega⟩
      · simp only [Kernel.setInode, Function.update_self]
        omega
      · simpa [Kernel.setInode] using inum
  | inr chosen =>
      cases chosen with
      | none => exact benign _ _ trivial
      | some ip =>
          have free := igetScan_inr found (by rintro _ ⟨⟩)
          have fresh : ∀ other, 0 < (locked.mem.icache other).ref →
              (locked.mem.icache other).inum ≠ n := fun other =>
            igetScan_missing found (List.mem_finRange other)
          simp only [Prog.wp_bind, modifyInode, Prog.wp_modifyMem]
          refine finish ip _ rfl rfl (locks.sound.claim free inRange fresh) ?_ ?_ ?_
            (refs_setInode _ _ _ _ (by simp only [free]; rfl))
          · refine keeps_setInode fun above => ?_
            have below := locks.sound.cache.holds ip
            omega
          · simp [Kernel.setInode]
          · simp [Kernel.setInode]

theorem idup_spec (inUse : 0 < (world.mem.icache ip).ref) :
    (idup ip).wp P F
      (fun result after => result = ip ∧ Gets base (world.mem.icache ip).inum world g ip after)
      world := by
  unfold idup
  simp only [Prog.wp_bind, modifyInode, Prog.wp_modifyMem]
  refine (acquire_spec benign sound).mono fun _ locked locks => ?_
  have lockedInUse : 0 < (locked.mem.icache ip).ref := by rwa [(locks.same ip).1]
  have taken := locks.sound.addRef lockedInUse
  have raised : Keeps g.held locked.mem
      (locked.mem.setInode ip fun inode => { inode with ref := inode.ref + 1 }) :=
    keeps_setInode fun _ => ⟨rfl, id, fun inUse => by simp only; omega⟩
  refine (release_spec benign taken).mono fun _ after released => ?_
  have disk := released.disk.trans locks.disk
  have refs : after.mem.refs = world.mem.refs + one ip := by
    have counted : (locked.mem.setInode ip fun inode => { inode with ref := inode.ref + 1 }).refs =
        locked.mem.refs + one ip := refs_setInode _ _ _ _ rfl
    rw [refs_of_sameEntries released.same, counted, refs_of_sameEntries locks.same]
  refine ⟨rfl, released.sound.moves_hold idle disk ?_ ?_, disk, ?_, ?_⟩
  · exact ((keeps_of_sameEntries locks.same _).trans raised).trans
      (keeps_of_sameEntries released.same _)
  · rw [refs, add_sub_add_right_eq_sub]
  · rw [(released.same ip).1]
    simp only [Kernel.setInode, Function.update_self]
    omega
  · rw [(released.same ip).2.1]
    simpa [Kernel.setInode] using (locks.same ip).2.1

end References

/-! ## Loading -/

/-- An inode has been loaded. -/
structure Loads (base : Set Nat) (n : Nat) (world : FsWorld) (g : Ghost) (ip : Slot)
    (after : FsWorld) : Prop where
  sound : Sound base after g
  disk : after.disk = world.disk
  caches : Caches after ip n
  keeps : ∀ floor, Keeps floor world.mem after.mem
  refs : after.mem.refs = world.mem.refs

theorem Loads.moves {after : FsWorld} (loads : Loads base n world g ip after) (idle : g.Idle)
    (floor : Slot → Int) :
    Moves base floor 0 world g (g.files world.disk) g.held after g where
  sound := loads.sound
  sb := rfl
  aligned := rfl
  credit := Nat.le_refl _
  taken _ _ := Or.inl rfl
  settled _ := id
  idle := idle
  keeps := loads.keeps floor
  refs := by rw [loads.refs]
  files := by rw [loads.disk]
  held := rfl
  pinned := rfl

/-- `ilock` loads the inode, unless it is a free one. -/
theorem ilock_spec (benign : ∀ reason world, Stop.Benign reason → F reason world)
    (sound : Sound base world g) (idle : g.Idle) (inum : (world.mem.icache ip).inum = n)
    (noType : n ∉ g.pinned → ∀ world, F .ilockNoType world) :
    (ilock ip).wp P F (fun _ after => Loads base n world g ip after) world := by
  unfold ilock getInode
  simp only [Prog.wp_bind, Prog.wp_getMem, Prog.wp_pure]
  split
  · exact benign _ _ trivial
  · next referenced =>
    simp only [Prog.wp_bind]
    refine (acquiresleep_spec benign sound).mono fun _ locked locks => ?_
    have inUse : 0 < (locked.mem.icache ip).ref := by
      rw [(locks.same ip).1]
      omega
    have lockedInum : (locked.mem.icache ip).inum = n := (locks.same ip).2.1.trans inum
    have inRange : n < g.sb.ninodes := lockedInum ▸ locks.sound.cache.inRange ip inUse
    unfold when
    split
    · next invalid =>
      have lockedInvalid : (locked.mem.icache ip).valid = false :=
        (locks.same ip).2.2.1.trans invalid
      have stored : dinodeAt (locked.disk (iblock g.sb n)) (n % IPB) = g.view n :=
        locks.sound.store.clean n inRange (idle.attached n) (by rw [idle.dirty]; rintro ⟨⟩)
      simp only [Prog.wp_bind, Prog.wp_getMem, Prog.wp_bread, Prog.wp_data, modifyInode,
        Prog.wp_modifyMem, inum, locks.sound.sameSb]
      intro slot
      rw [stored]
      split
      · next free =>
        refine noType (fun member => ?_) _
        exact (sound.pinned n member).allocated free
      · next allocated =>
        have collapse : (locked.mem.setInode ip fun inode =>
              { inode with din := g.view n }).setInode ip
              (fun inode => { inode with valid := true }) =
            locked.mem.setInode ip fun inode =>
              { inode with din := g.view n, valid := true } := by
          simp [Kernel.setInode]
        have loaded : Sound base
            { locked with
              mem := locked.mem.setInode ip fun inode =>
                { inode with din := g.view n, valid := true } } g :=
          locks.sound.recache rfl rfl
            (locks.sound.cache.setInode rfl (fun _ _ _ => rfl)
              (fun _ other => locks.sound.cache.apart inUse) (fun _ => lockedInum ▸ inRange)
              (fun _ _ => by
                simp only [lockedInum]
                exact ⟨rfl, allocated⟩)
              (locks.sound.cache.holds_setInode rfl))
        simp only [brelse, Prog.wp_pure, collapse]
        have entered : ∀ floor, Keeps floor locked.mem (locked.mem.setInode ip fun inode =>
            { inode with din := g.view n, valid := true }) :=
          fun floor => keeps_setInode fun _ => ⟨rfl, fun _ => rfl, id⟩
        refine ⟨loaded, locks.disk, ⟨?_, ?_, ?_⟩, fun floor =>
          (keeps_of_sameEntries locks.same floor).trans (entered floor), ?_⟩
        · simpa [Kernel.setInode] using inUse
        · simp [Kernel.setInode]
        · simpa [Kernel.setInode] using lockedInum
        · have counted : (locked.mem.setInode ip fun inode =>
              { inode with din := g.view n, valid := true }).refs =
                locked.mem.refs + Pi.single ip 0 :=
            refs_setInode _ _ _ 0 (add_zero _).symm
          rw [counted, Pi.single_zero, add_zero, refs_of_sameEntries locks.same]
    · next valid =>
      have lockedValid : (locked.mem.icache ip).valid = true := by
        rw [(locks.same ip).2.2.1]
        simpa using valid
      exact ⟨locks.sound, locks.disk, ⟨inUse, lockedValid, lockedInum⟩,
        keeps_of_sameEntries locks.same, refs_of_sameEntries locks.same⟩

/-! ## Storing -/

/-- `iupdate` writes the inode. -/
theorem iupdate_wp {kernel : Kernel} (sameSb : kernel.sb = g.sb)
    (inum : (kernel.icache ip).inum = n) {Q : Unit → FsWorld → Prop}
    (written : P (Function.update world.disk (iblock g.sb n)
      (setDinode (world.disk (iblock g.sb n)) (n % IPB) (kernel.icache ip).din)))
    (rest : Q () ⟨kernel, Function.update world.disk (iblock g.sb n)
      (setDinode (world.disk (iblock g.sb n)) (n % IPB) (kernel.icache ip).din)⟩) :
    (iupdate ip).wp P F Q { world with mem := kernel } := by
  unfold iupdate
  simp only [Prog.wp_bind, Prog.wp_getMem, Prog.wp_bread, Prog.wp_data, Prog.wp_logWrite]
  rw [sameSb, inum]
  exact fun slot => ⟨written, rest⟩

theorem blockAt_of_addrs {din din' : Dinode} (addrs : din'.addrs = din.addrs) (disk : Disk)
    (p : Pos) : din'.blockAt disk p = din.blockAt disk p := by
  have same : din'.addr = din.addr := by
    funext i
    simp only [Dinode.addr, addrs]
  simp only [Dinode.blockAt, same]

theorem content_of_addrs {din din' : Dinode} (addrs : din'.addrs = din.addrs) (disk : Disk) :
    content disk din' = content disk din := by
  funext off
  simp only [content, blockAt_of_addrs addrs]

/-- Fields of an inode are assigned and the inode is stored. -/
theorem setFields_spec (safe : ∀ world g, Sound base world g → P world.disk)
    (sound : Sound base world g) (only : OnlyDirty g n) (caches : Caches world ip n)
    (owns : g.Owns n) {change : Dinode → Dinode}
    (addrs : (change (g.view n)).addrs = (g.view n).addrs)
    (allocated : (change (g.view n)).type ≠ 0)
    (file : FileSound world.disk (g.put n (change (g.view n))) n) :
    (iupdate ip).wp P F
      (fun _ after => ∃ g', Caches after ip n ∧ ∀ floor, Moves base floor 0 world g
        (Function.update (g.files world.disk) n (some ((change (g.view n)).node world.disk)))
        g.held after g')
      { world with mem := world.mem.setInode ip (·.mapDin change) } := by
  have slots := sameSlots_setDin world.mem ip change
  have din : ((world.mem.setInode ip (·.mapDin change)).icache ip).din = change (g.view n) := by
    simp [Kernel.setInode, Inode.mapDin, caches.din sound]
  have cache : CacheSound (world.mem.setInode ip (·.mapDin change))
      (g.put n (change (g.view n))) := by
    refine sound.cache.setDin caches.inUse caches.valid ?_ rfl rfl ?_
    · rwa [caches.inum]
    · rw [caches.inum]
      rfl
  have points : (g.put n (change (g.view n))).Owns n → ∀ p, p.Valid fileShape →
      (change (g.view n)).blockAt world.disk p ≠ 0 →
      g.tag ((change (g.view n)).blockAt world.disk p) = .owned n p := by
    intro _ p valid present
    rw [blockAt_of_addrs addrs] at present ⊢
    exact sound.blocks.points n p owns valid present
  have newOwns : (g.put n (change (g.view n))).Owns n :=
    ⟨owns.inRange, by rwa [put_view_self], by rintro ⟨⟩⟩
  have owned : ∀ b p, g.tag b = .owned n p →
      (g.put n (change (g.view n))).Owns n ∧ p.Valid fileShape ∧
        (change (g.view n)).blockAt world.disk p = b := by
    intro b p tag
    obtain ⟨-, valid, place⟩ := sound.blocks.owned b n p tag owns.attached
    exact ⟨newOwns, valid, (blockAt_of_addrs addrs _ _).trans place⟩
  have before := sound.blocks_put only points owned
  have inum := (slots ip).2.1.trans caches.inum
  have sameSb : (world.mem.setInode ip (·.mapDin change)).sb = world.mem.sb := rfl
  have stored := sound.put owns.inRange only sameSb sound.mounted cache points owned
    (fun _ => file) fun _ => newOwns
  refine iupdate_wp (sameSb.trans sound.sameSb) inum ?_ ?_
  · rw [din]
    exact safe _ _ stored
  · rw [din]
    refine ⟨g.put n (change (g.view n)), caches.same slots, fun floor => ?_⟩
    exact
      { sound := stored
        sb := rfl
        aligned := rfl
        credit := Nat.le_refl _
        taken := fun _ _ => Or.inl rfl
        settled := fun _ => id
        idle := ⟨rfl, rfl⟩
        keeps := slots.keeps floor
        refs := by rw [slots.refs]; rfl
        files := by rw [sound.files_put owns.inRange before, if_neg allocated]
        held := rfl
        pinned := rfl }

/-- Changing neither type nor size keeps a file what it is. -/
theorem FileSound.fields {disk : Disk} (file : FileSound disk g n) {din : Dinode}
    (addrs : din.addrs = (g.view n).addrs) (type : din.type = (g.view n).type)
    (size : din.size = (g.view n).size) : FileSound disk (g.put n din) n := by
  refine ⟨?_, fun bn inside => ?_, ?_⟩
  · rw [put_view_self, size]
    exact file.small
  · rw [put_view_self] at inside ⊢
    rw [blockAt_of_addrs addrs]
    exact file.full bn (by rwa [size] at inside)
  · have entries := file.entries
    unfold EntriesSound Node.dirent Dinode.node at *
    rw [put_view_self]
    simp only [type, size, content_of_addrs addrs] at *
    exact entries

end Operations

end Notux.Fs
