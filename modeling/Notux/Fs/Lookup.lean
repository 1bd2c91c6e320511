import Notux.Fs.Names

/-!
# Lookups that only want for inodes

A lookup below pinned directories stops for one reason alone: `iget` finds the inode table
full.  The accounts of the disk and of the locks leave few panics open, and none of these
shows up where the entries are referenced and the directories are directories.
-/

namespace Notux.Fs

open Notux.Store Notux.Proc

/-- The run ends as stated and has written nothing. -/
structure Silent {α : Type} (F : Stop → FsWorld → Prop) (Q : α → FsWorld → Prop)
    (result : Run Kernel Block Stop α) : Prop where
  ends : Prog.Run.Ends F Q result
  writes : result.writes = []

/-- No write is allowed, so there is none. -/
theorem silent_of_wp {α : Type} {program : FsM α} {F : Stop → FsWorld → Prop}
    {Q : α → FsWorld → Prop} {world : FsWorld} (holds : program.wp (fun _ => False) F Q world) :
    Silent F Q (program.run world) where
  ends := holds.run
  writes := by
    by_contra written
    exact holds.writes (List.prefix_refl _) written

/-- Weakening of what is returned. -/
theorem Silent.mono {α : Type} {result : Run Kernel Block Stop α} {F : Stop → FsWorld → Prop}
    {Q Q' : α → FsWorld → Prop} (silent : Silent F Q result)
    (returned : ∀ value, Q value result.world → Q' value result.world) : Silent F Q' result where
  ends := by
    have ends := silent.ends
    unfold Prog.Run.Ends at ends ⊢
    split
    · next value isValue =>
      rw [isValue] at ends
      exact returned value ends
    · next reason stopped =>
      rw [stopped] at ends
      exact ends
  writes := silent.writes

/-- What is silent and returns. -/
theorem Silent.returned {α : Type} {result : Run Kernel Block Stop α} {F : Stop → FsWorld → Prop}
    {Q : α → FsWorld → Prop} (silent : Silent F Q result) {value : α}
    (outcome : result.outcome = .ret value) : ∃ after, result = ⟨.ret value, after, []⟩ ∧
      Q value after := by
  obtain ⟨after, writes, same, holds⟩ := silent.ends.returned outcome
  have written := silent.writes
  rw [same] at written
  have none : writes = [] := written
  subst none
  exact ⟨after, same, holds⟩

/-- A silent run leaves the disk as it is. -/
theorem Silent.sameDisk {α : Type} {program : FsM α} {F : Stop → FsWorld → Prop}
    {Q : α → FsWorld → Prop} {world : FsWorld} (silent : Silent F Q (program.run world)) :
    (program.run world).world.disk = world.disk := by
  rw [Prog.run_disk, silent.writes]
  rfl

/-- The inode table was full where it might be. -/
def OnlyFull (full : Prop) (reason : Stop) (_world : FsWorld) : Prop :=
  reason = .igetNoInodes ∧ full

/-- The panics that the accounts of the disk and of the locks exclude, and a full table. -/
def Excluded (full : Prop) (reason : Stop) : Prop :=
  reason.Locking ∨ ¬ reason.Benign ∨ reason = .igetNoInodes ∧ full

/-- A program that writes nothing and only stops for what is excluded. -/
def Spared {α : Type} (full : Prop) (program : FsM α) (world : FsWorld) : Prop :=
  program.wp (fun _ => False) (fun reason _ => Excluded full reason) (fun _ _ => True) world

variable {full : Prop} {locks locks' : Set Slot} {world : FsWorld} {g : Ghost} {ip : Slot} {n : Nat}

/-- What three accounts of a program say together. -/
theorem only_full {α : Type} {program : FsM α} {Q : α → FsWorld → Prop}
    {before : Kernel → Prop} {after : α → Kernel → Prop}
    (spec : program.wp (fun _ => True) (fun reason _ => reason.Benign) Q world)
    (safely : Safely before program after) (start : before world.mem)
    (spared : Spared full program world) :
    program.wp (fun _ => False) (OnlyFull full)
      (fun value final => Q value final ∧ after value final.mem) world := by
  apply ((safely.along spec start).and spared).conseq
  · exact fun _ both => both.2
  · rintro reason final ⟨⟨benign, notLocking⟩, locking | notBenign | isFull⟩
    · exact absurd locking notLocking
    · exact absurd benign notBenign
    · exact isFull
  · exact fun _ _ both => both.1

/-! ## The panics of single functions -/

theorem acquire_spared : acquire.wp (fun _ => False) (fun reason _ => Excluded full reason)
    (fun _ after => after.mem.icache = world.mem.icache) world := by
  unfold acquire
  simp only [Prog.wp_bind, Prog.wp_getMem]
  split
  · exact Or.inl trivial
  · exact rfl

theorem release_spared : release.wp (fun _ => False) (fun reason _ => Excluded full reason)
    (fun _ after => after.mem.icache = world.mem.icache) world := by
  unfold release
  simp only [Prog.wp_bind, Prog.wp_getMem]
  split
  · exact rfl
  · exact Or.inl trivial

/-- A scan that finds no free entry has seen none. -/
theorem igetScan_none {icache : Slot → Inode} {inum : Nat} {slots : List Slot}
    {empty : Option Slot} (found : igetScan icache inum slots empty = .inr none) :
    empty = none ∧ ∀ ip ∈ slots, (icache ip).ref ≠ 0 := by
  induction slots generalizing empty with
  | nil => exact ⟨Sum.inr.inj found, nofun⟩
  | cons slot rest ih =>
      unfold igetScan at found
      split at found
      · cases found
      · obtain ⟨nothing, inUse⟩ := ih found
        split at nothing
        · cases nothing
        · next occupied =>
          refine ⟨nothing, fun ip member => ?_⟩
          rcases List.mem_cons.mp member with rfl | member
          · exact fun free => occupied ⟨nothing, free⟩
          · exact inUse ip member

/-- Changing an entry and releasing the lock of the table. -/
theorem changed_spared (change : Inode → Inode) (ip : Slot) : Spared full (do
    modifyInode ip change
    release
    return ip) world := by
  unfold Spared
  simp only [Prog.wp_bind, modifyInode, Prog.wp_modifyMem]
  exact release_spared.mono fun _ _ _ => trivial

theorem iget_spared (isFull : (∀ ip, (world.mem.icache ip).ref ≠ 0) → full) :
    Spared full (iget n) world := by
  unfold Spared iget
  simp only [Prog.wp_bind, Prog.wp_getMem]
  apply acquire_spared.mono
  intro _ locked same
  rw [same]
  split
  · exact changed_spared _ _
  · exact changed_spared _ _
  · next found =>
    obtain ⟨-, inUse⟩ := igetScan_none found
    exact Or.inr (Or.inr ⟨rfl, isFull fun ip => inUse ip (List.mem_finRange ip)⟩)

theorem idup_spared : Spared full (idup ip) world := by
  unfold Spared idup
  rw [Prog.wp_bind]
  apply acquire_spared.mono
  intro _ locked _
  exact changed_spared _ _

theorem acquiresleep_spared : (acquiresleep ip).wp (fun _ => False)
    (fun reason _ => Excluded full reason)
    (fun _ after => after.mem.Frees ip ↔ world.mem.Frees ip) world := by
  unfold acquiresleep getInode
  simp only [Prog.wp_bind, Prog.wp_getMem, Prog.wp_pure]
  split
  · exact Or.inl trivial
  · simp [modifyInode, Kernel.setInode, Kernel.Frees]

theorem releasesleep_spared : Spared full (releasesleep ip) world := by
  unfold Spared releasesleep getInode
  simp only [Prog.wp_bind, Prog.wp_getMem, Prog.wp_pure]
  split
  · trivial
  · exact Or.inl trivial

theorem ilock_spared (inUse : 0 < (world.mem.icache ip).ref) : Spared full (ilock ip) world := by
  unfold Spared ilock getInode
  simp only [Prog.wp_bind, Prog.wp_getMem, Prog.wp_pure]
  split
  · omega
  · simp only [Prog.wp_bind]
    apply acquiresleep_spared.mono
    intro _ locked _
    unfold when
    split
    · simp only [Prog.wp_bind, Prog.wp_getMem, Prog.wp_bread, Prog.wp_data, modifyInode,
        Prog.wp_modifyMem, brelse, Prog.wp_pure]
      intro _
      split
      · exact Or.inr (Or.inl id)
      · trivial
    · trivial

theorem iunlock_spared : Spared full (iunlock ip) world := by
  unfold Spared iunlock getInode
  simp only [Prog.wp_bind, Prog.wp_getMem, Prog.wp_pure]
  split
  · exact Or.inl trivial
  · exact releasesleep_spared

/-- Giving back a reference that is not the last one to an inode without links. -/
theorem iput_spared (stays : ¬ world.mem.Frees ip) : Spared full (iput ip) world := by
  have finish : ∀ world : FsWorld, Spared full (do
      releasesleep ip
      acquire
      modifyInode ip fun inode => { inode with ref := inode.ref - 1 }
      release) world := by
    intro world
    unfold Spared
    rw [Prog.wp_bind]
    apply releasesleep_spared.mono
    intro _ _ _
    rw [Prog.wp_bind]
    apply acquire_spared.mono
    intro _ _ _
    simp only [Prog.wp_bind, modifyInode, Prog.wp_modifyMem]
    exact release_spared.mono fun _ _ _ => trivial
  simp only [Spared, Prog.wp_bind] at finish
  unfold Spared iput
  rw [Prog.wp_bind]
  apply acquiresleep_spared.mono
  intro _ locked same
  rw [← same] at stays
  simp only [getInode, Prog.wp_bind, Prog.wp_getMem, Prog.wp_pure]
  unfold when
  split
  · next last =>
    simp only [Prog.wp_bind, Prog.wp_getMem]
    apply acquire_spared.mono
    intro _ held unchanged
    rw [unchanged]
    apply release_spared.mono
    intro _ _ _
    rw [if_neg fun alone => stays ⟨last.1, last.2, alone⟩]
    exact finish _
  · exact finish _

/-- Entries are read in full where directories hold whole entries only. -/
theorem dirlookup_spared {dp : Slot} {d : Nat} {name : List Byte} (sound : Sound ∅ world g)
    (caches : Caches world dp d) (owns : g.Owns d) (isDir : (g.view d).type = T_DIR)
    (isFull : (∀ ip, (world.mem.icache ip).ref ≠ 0) → full) :
    Spared full (dirlookup dp name) world := by
  have loop : ∀ fuel off, Spared full (dirlookupLoop dp name fuel off) world := by
    intro fuel
    induction fuel with
    | zero => exact fun _ => trivial
    | succ fuel ih =>
        intro off
        unfold Spared dirlookupLoop getInode
        simp only [Prog.wp_bind, Prog.wp_getMem, Prog.wp_pure, caches.din sound]
        split
        · next below =>
          rw [Prog.wp_bind]
          apply readDirent_spec sound caches owns isDir below
          · intro _
            dsimp only
            split
            · rw [Prog.wp_bind]
              exact (iget_spared isFull).mono fun _ _ _ => trivial
            · exact ih _
          · exact fun _ => Or.inr (Or.inl id)
        · trivial
  unfold Spared dirlookup getInode
  simp only [Prog.wp_bind, Prog.wp_getMem, Prog.wp_pure, caches.din sound]
  rw [if_pos isDir]
  exact loop _ _

/-! ## Room in the inode table -/

/-- Fewer than so many entries of the inode table are free. -/
def Scarce (k : Nat) (refs : Slot → Int) : Prop :=
  (Finset.univ.filter fun ip => refs ip = 0).card < k

theorem scarce_of_full {refs : Slot → Int} (isFull : ∀ ip, refs ip ≠ 0) : Scarce 1 refs := by
  unfold Scarce
  rw [Finset.filter_false_of_mem fun ip _ => isFull ip]
  exact Nat.one_pos

/-- One more reference takes at most one entry. -/
theorem scarce_one (ip : Slot) {refs : Slot → Int} {k : Nat} (scarce : Scarce k (refs + one ip)) :
    Scarce (k + 1) refs := by
  have fewer : (Finset.univ.filter fun other => refs other = 0).erase ip ⊆
      Finset.univ.filter fun other => (refs + one ip) other = 0 := by
    intro other member
    obtain ⟨differ, free⟩ := Finset.mem_erase.mp member
    rw [Finset.mem_filter] at free ⊢
    refine ⟨Finset.mem_univ other, ?_⟩
    rw [Pi.add_apply, free.2, one_of_ne differ, add_zero]
  have count := Finset.card_le_card fewer
  have erased : (Finset.univ.filter fun other => refs other = 0).card - 1 ≤
      ((Finset.univ.filter fun other => refs other = 0).erase ip).card :=
    Finset.pred_card_le_card_erase
  unfold Scarce at scarce ⊢
  omega

/-! ## Single steps -/

/-- The invariant between two steps, with every reference accounted for. -/
structure Firm (locks : Set Slot) (world : FsWorld) (g : Ghost) : Prop where
  sound : Sound ∅ world g
  idle : g.Idle
  aligned : g.aligned
  counted : g.held = world.mem.refs
  holding : Holding locks world.mem

/-- The pinned inodes have links. -/
def PinnedLinked (world : FsWorld) (g : Ghost) : Prop :=
  ∀ j ∈ g.pinned, ∀ node, g.files world.disk j = some node → node.nlink ≠ 0

section Steps

variable {P : Disk → Prop} {floor held : Slot → Int} {k : Nat} {after : FsWorld} {g' : Ghost}

theorem accepts_benign {aligned : Prop} (yes : aligned) :
    Accepts (fun reason _ => Stop.Benign reason) aligned where
  benign _ _ := id
  ragged no := absurd yes no

/-- What a step leaves of the account. -/
theorem Firm.moves (firm : Firm locks world g)
    (moves : Moves ∅ floor k world g (g.files world.disk) held after g')
    (holding : Holding locks' after.mem) : Firm locks' after g' where
  sound := moves.sound
  idle := moves.idle
  aligned := moves.aligned.symm ▸ firm.aligned
  counted := by
    have same := moves.refs
    rw [firm.counted, sub_self] at same
    exact (sub_eq_zero.mp same).symm
  holding := holding

/-- What a step leaves of the pinned inodes. -/
theorem pinnedLinked_of_moves (linked : PinnedLinked world g)
    (moves : Moves ∅ floor k world g (g.files world.disk) held after g') :
    PinnedLinked after g' := by
  intro j member node found
  rw [moves.pinned] at member
  rw [moves.files] at found
  exact linked j member node found

theorem Firm.isFull (firm : Firm locks world g) (scarce : Scarce 1 g.held → full)
    (isFull : ∀ ip, (world.mem.icache ip).ref ≠ 0) : full := by
  apply scarce
  rw [firm.counted]
  exact scarce_of_full isFull

/-- A pinned inode is not freed. -/
theorem not_frees (sound : Sound ∅ world g) (idle : g.Idle) (linked : PinnedLinked world g)
    (inum : (world.mem.icache ip).inum = n) (pinned : n ∈ g.pinned) : ¬ world.mem.Frees ip := by
  rintro ⟨valid, unlinked, last⟩
  have inUse : 0 < (world.mem.icache ip).ref := by omega
  have caches : Caches world ip n := ⟨inUse, valid, inum⟩
  have owns := caches.owns sound (idle.attached n)
  apply linked n pinned _ owns.files
  rw [node_nlink, ← caches.din sound]
  exact unlinked

theorem iget_only_full (firm : Firm locks world g) (inRange : n < g.sb.ninodes)
    (scarce : Scarce 1 g.held → full) : (iget n).wp (fun _ => False) (OnlyFull full)
      (fun ip after => Gets ∅ n world g ip after ∧ Holding locks after.mem) world :=
  only_full (iget_spec (fun _ _ => id) firm.sound firm.idle inRange) iget_safely firm.holding
    (iget_spared (firm.isFull scarce))

theorem idup_only_full (firm : Firm locks world g) (inUse : 0 < (world.mem.icache ip).ref) :
    (idup ip).wp (fun _ => False) (OnlyFull full)
      (fun result after => (result = ip ∧ Gets ∅ (world.mem.icache ip).inum world g ip after) ∧
        Holding locks after.mem) world :=
  only_full (idup_spec (fun _ _ => id) firm.sound firm.idle inUse) idup_safely firm.holding
    idup_spared

theorem ilock_only_full (firm : Firm locks world g) (free : ip ∉ locks)
    (inUse : 0 < (world.mem.icache ip).ref) (inum : (world.mem.icache ip).inum = n)
    (pinned : n ∈ g.pinned) : (ilock ip).wp (fun _ => False) (OnlyFull full)
      (fun _ after => Loads ∅ n world g ip after ∧ Holding (insert ip locks) after.mem) world :=
  only_full (ilock_spec (fun _ _ => id) firm.sound firm.idle inum fun not => absurd pinned not)
    (ilock_holding free) firm.holding (ilock_spared inUse)

theorem iunlock_only_full (firm : Firm (insert ip locks) world g) (free : ip ∉ locks) :
    (iunlock ip).wp (fun _ => False) (OnlyFull full)
      (fun _ after => Locks ∅ world g after ∧ Holding locks after.mem) world :=
  only_full (iunlock_spec (fun _ _ => id) firm.sound) (iunlock_holding free) firm.holding
    iunlock_spared

theorem dirlookup_only_full {dp : Slot} {d : Nat} {name : List Byte} (firm : Firm locks world g)
    (caches : Caches world dp d) (owns : g.Owns d) (isDir : (g.view d).type = T_DIR)
    (scarce : Scarce 1 g.held → full) : (dirlookup dp name).wp (fun _ => False) (OnlyFull full)
      (fun found after => (Looked ∅ world g ((g.view d).node world.disk) name found after ∧
        found.map Prod.snd = ((g.view d).node world.disk).lookup name) ∧
        Holding locks after.mem) world :=
  only_full (dirlookup_first (accepts_benign firm.aligned) firm.sound firm.idle caches owns isDir)
    dirlookup_safely firm.holding (dirlookup_spared firm.sound caches owns isDir (firm.isFull scarce))

variable (linked : PinnedLinked world g) (inum : (world.mem.icache ip).inum = n)
  (pinned : n ∈ g.pinned)

include linked inum pinned

/-- Giving back a pinned inode changes no file. -/
theorem iput_only_full (firm : Firm locks world g) (free : ip ∉ locks) :
    (iput ip).wp (fun _ => False) (OnlyFull full) (fun _ after => ∃ g',
      Moves ∅ (g.held - one ip) 0 world g (g.files world.disk) (g.held - one ip) after g' ∧
        Holding locks after.mem) world := by
  have stays := not_frees firm.sound firm.idle linked inum pinned
  apply (only_full (iput_spec (fun _ _ _ => trivial) (fun _ _ => id) firm.sound firm.idle inum
    fun frees => absurd frees stays) (iput_holding free) firm.holding (iput_spared stays)).mono
  rintro _ after ⟨⟨g', moves⟩, holding⟩
  rw [if_neg stays] at moves
  exact ⟨g', moves, holding⟩

theorem iunlockput_only_full (firm : Firm (insert ip locks) world g) (free : ip ∉ locks) :
    (iunlockput ip).wp (fun _ => False) (OnlyFull full) (fun _ after => ∃ g',
      Moves ∅ (g.held - one ip) 0 world g (g.files world.disk) (g.held - one ip) after g' ∧
        Holding locks after.mem) world := by
  unfold iunlockput
  rw [Prog.wp_bind]
  apply (iunlock_only_full firm free).mono
  rintro _ unlocked ⟨unlocks, holding⟩
  have first := unlocks.moves firm.idle (g.held - one ip)
  apply (iput_only_full (pinnedLinked_of_moves linked first)
    ((unlocks.same ip).2.1.trans inum) pinned (firm.moves first holding) free).mono
  rintro _ after ⟨g', moves, holding'⟩
  rw [first.files] at moves
  exact ⟨g', first.trans moves, holding'⟩

end Steps

/-! ## Walks below pinned directories -/

/-- What a walk leaves: no file has changed, and what it returns is pinned. -/
def Lands (floor held : Slot → Int) (world : FsWorld) (g : Ghost)
    (result : Option (Slot × List Byte)) (after : FsWorld) : Prop :=
  ∃ g', Moves ∅ floor 0 world g (g.files world.disk) (held + walked result) after g' ∧
    Holding ∅ after.mem ∧ ∀ found ∈ result, (after.mem.icache found.1).inum ∈ g.pinned

/-- The loop of `namex` from a pinned inode on. -/
theorem namexLoop_only_full {parent : Bool} {fuel : Nat} {path : List Byte} (firm : Firm ∅ world g)
    (linked : PinnedLinked world g) (owed : one ip ≤ g.held)
    (inum : (world.mem.icache ip).inum = n) (pinned : n ∈ g.pinned)
    (scarce : Scarce 2 (g.held - one ip) → full) (enough : path.length < fuel) :
    (namexLoop parent fuel ip path).wp (fun _ => False) (OnlyFull full)
      (Lands (g.held - one ip) (g.held - one ip) world g) world := by
  induction fuel generalizing path world g ip n with
  | zero => cases enough
  | succ fuel ih =>
      have unlocked : ip ∉ (∅ : Set Slot) := Set.notMem_empty ip
      have atIp : 0 < g.held ip := by
        have below : (1 : Int) ≤ g.held ip := by simpa [one_self] using owed ip
        omega
      have inUse : 0 < (world.mem.icache ip).ref := lt_of_lt_of_le atIp (firm.sound.cache.holds ip)
      have kept : g.held - one ip + one ip = g.held := sub_add_cancel _ _
      unfold namexLoop
      cases element : skipelem path with
      | none =>
          dsimp only
          cases parent with
          | true =>
              simp only [if_true, Prog.wp_bind, Prog.wp_pure]
              apply (iput_only_full linked inum pinned firm unlocked).mono
              rintro _ after ⟨g', moves, holding⟩
              exact ⟨g', by simpa [walked] using moves, holding, by rintro _ ⟨⟩⟩
          | false =>
              simp only [Bool.false_eq_true, if_false, Prog.wp_pure]
              refine ⟨g, ?_, firm.holding, ?_⟩
              · have stays := Moves.refl firm.sound firm.idle (g.held - one ip)
                simpa [walked, kept] using stays
              · rintro _ ⟨⟩
                exact inum.symm ▸ pinned
      | some both =>
          obtain ⟨name, rest⟩ := both
          have shorter : rest.length < fuel := by
            have less := skipelem_length element
            omega
          simp only [Prog.wp_bind]
          apply (ilock_only_full firm unlocked inUse inum pinned).mono
          rintro _ locked ⟨loads, lockedHolding⟩
          have caches := loads.caches
          have owns := caches.owns loads.sound (firm.idle.attached n)
          have lockedInum := caches.inum
          have first := loads.moves firm.idle (g.held - one ip)
          have firm' := firm.moves first lockedHolding
          have linked' := pinnedLinked_of_moves linked first
          -- the exits that return nothing
          have leave : (iunlockput ip).wp (fun _ => False) (OnlyFull full)
              (fun _ after => Lands (g.held - one ip) (g.held - one ip) world g none after)
              locked := by
            apply (iunlockput_only_full linked' lockedInum pinned firm' unlocked).mono
            rintro _ after ⟨g', moves, holding⟩
            rw [first.files] at moves
            refine ⟨g', ?_, holding, by rintro _ ⟨⟩⟩
            simpa [walked] using first.trans moves
          simp only [getInode, Prog.wp_bind, Prog.wp_getMem, Prog.wp_pure, caches.din loads.sound]
          by_cases isDir : (g.view n).type = T_DIR
          · simp only [ne_eq, isDir, not_true_eq_false, if_false]
            by_cases last : parent = true ∧ rest = []
            · rw [if_pos last]
              simp only [Prog.wp_bind, Prog.wp_pure]
              apply (iunlock_only_full firm' unlocked).mono
              rintro _ after ⟨unlocks, holding⟩
              refine ⟨g, ?_, holding, ?_⟩
              · have stays := first.trans (unlocks.moves firm.idle (g.held - one ip))
                rw [loads.disk] at stays
                simpa [walked, kept] using stays
              · rintro _ ⟨⟩
                rw [(unlocks.same ip).2.1, lockedInum]
                exact pinned
            · rw [if_neg last]
              simp only [Prog.wp_bind]
              have scarce' : Scarce 1 g.held → full := fun few =>
                scarce (scarce_one ip (kept.symm ▸ few))
              apply (dirlookup_only_full firm' caches owns isDir scarce').mono
              rintro looked after ⟨⟨result, -⟩, taken⟩
              cases looked with
              | none =>
                  obtain ⟨rfl, -⟩ := result
                  simpa only [Prog.wp_bind, Prog.wp_pure] using leave
              | some next =>
                  -- the turn to the inode that an entry names
                  obtain ⟨next, off⟩ := next
                  obtain ⟨entry, names, gets⟩ := result
                  have second := gets.moves
                  have sameIp : (after.mem.icache ip).inum = n :=
                    (second.keeps ip atIp).1.trans lockedInum
                  have nonzero : (((g.view n).node locked.disk).dirent off).inum.toNat ≠ 0 := by
                    intro zero
                    exact names.1 (BitVec.eq_of_toNat_eq zero)
                  have pinnedNext := (((loads.sound.files n owns).entries isDir).2 off entry.1
                    entry.2 nonzero).2 pinned
                  have linkedNext := pinnedLinked_of_moves linked' second
                  simp only [Prog.wp_bind]
                  apply (iunlockput_only_full linkedNext sameIp pinned
                    (firm'.moves second taken) unlocked).mono
                  rintro _ dropped ⟨g', moves, holding⟩
                  have above : 0 < (g.held + one next - one ip) next := by
                    have spare : one ip next ≤ g.held next := owed next
                    change 0 < g.held next + one next next - one ip next
                    rw [one_self]
                    omega
                  have held : g'.held - one next = g.held - one ip := by
                    rw [moves.held]
                    change g.held + one next - one ip - one next = _
                    abel
                  have owedNext : one next ≤ g'.held := by
                    rw [moves.held]
                    intro other
                    have spare : one ip other ≤ g.held other := owed other
                    change one next other ≤ g.held other + one next other - one ip other
                    omega
                  have firmNext := (firm'.moves second taken).moves moves holding
                  apply (ih firmNext (pinnedLinked_of_moves linkedNext moves) owedNext
                    ((moves.keeps next above).1.trans gets.inum) (moves.pinned ▸ pinnedNext)
                    (held ▸ scarce) shorter).mono
                  rintro arrived final ⟨g'', walks, holding', found⟩
                  rw [held, moves.files, second.files, first.files] at walks
                  have floor : g.held - one ip ≤ g.held := sub_one_le _ _
                  have floor' : g.held - one ip ≤ g.held + one next - one ip := by
                    intro other
                    have nonneg := nonneg_one next other
                    change g.held other - one ip other ≤ g.held other + one next other - one ip other
                    omega
                  refine ⟨g'', ?_, holding', moves.pinned ▸ found⟩
                  exact ((first.trans (second.mono floor le_rfl)).trans
                    (moves.mono floor' le_rfl)).trans walks
          · simp only [ne_eq, isDir, not_false_eq_true, if_true]
            simpa only [Prog.wp_bind, Prog.wp_pure] using leave

section Namex

variable (firm : Firm ∅ world g) (linked : PinnedLinked world g) (nonneg : 0 ≤ g.held)

include firm linked nonneg

/-- The walk from a pinned inode that a reference has just been taken to. -/
theorem namexFrom_only_full {parent : Bool} {path : List Byte} {middle : FsWorld}
    (pinned : n ∈ g.pinned) (scarce : Scarce 2 g.held → full) (gets : Gets ∅ n world g ip middle)
    (holding : Holding ∅ middle.mem) :
    (namexLoop parent (path.length + 1) ip path).wp (fun _ => False) (OnlyFull full)
      (Lands g.held g.held world g) middle := by
  have taken := gets.moves
  have owed : one ip ≤ (g.hold (g.held + one ip)).held := by
    intro other
    have above : 0 ≤ g.held other := nonneg other
    change one ip other ≤ g.held other + one ip other
    omega
  have held : (g.hold (g.held + one ip)).held - one ip = g.held := add_sub_cancel_right _ _
  apply (namexLoop_only_full (firm.moves taken holding) (pinnedLinked_of_moves linked taken) owed
    gets.inum pinned (held.symm ▸ scarce) (Nat.lt_succ_self _)).mono
  rintro result after ⟨g', moves, holding', found⟩
  rw [held, taken.files] at moves
  exact ⟨g', taken.trans moves, holding', found⟩

omit linked nonneg in
theorem myprocCwd_spared (scarce : Scarce 1 g.held → full) : Spared full myprocCwd world := by
  have atOnce : ∀ ip, namexLoop false ([slash].length + 1) ip [slash] = pure (some (ip, [])) :=
    fun _ => rfl
  unfold Spared myprocCwd
  simp only [Prog.wp_bind, Prog.wp_getMem]
  split
  · trivial
  · unfold namexRoot
    simp only [Prog.wp_bind, atOnce, Prog.wp_pure, Prog.wp_modifyMem]
    exact iget_spared (firm.isFull scarce)

omit firm linked nonneg in
/-- The working directory is returned if there is one. -/
theorem myprocCwd_same : myprocCwd.wp (fun _ => True) (fun _ _ => True)
    (fun ip _ => ∀ old, world.mem.cwd = some old → ip = old) world := by
  unfold myprocCwd
  simp only [Prog.wp_bind, Prog.wp_getMem]
  split
  · next isCwd => exact fun old isOld => Option.some.inj (isCwd.symm.trans isOld)
  · next isNone =>
    have nothing : ∀ ip old, world.mem.cwd = some old → ip = old := by
      rw [isNone]
      rintro ip old ⟨⟩
    exact (Prog.wp_trivial _ _).mono fun found _ _ => nothing found

/-- `namex` from a pinned inode on. -/
theorem namex_only_full {path : List Byte} {parent : Bool} (root : ROOTINO < g.sb.ninodes)
    (cwdHeld : ∀ ip, world.mem.cwd = some ip → 0 < g.held ip)
    (pinned : (if path.head? = some slash then ROOTINO else world.mem.cwdInum) ∈ g.pinned)
    (scarce : Scarce 3 g.held → full) :
    (namex path parent).wp (fun _ => False) (OnlyFull full)
      (fun result after => Lands g.held (g.held + oneOf after.mem.cwd - oneOf world.mem.cwd)
        world g result after ∧ ∀ old, world.mem.cwd = some old → after.mem.cwd = some old) world := by
  have fewer : ∀ {k m : Nat} {refs : Slot → Int}, k ≤ m → Scarce k refs → Scarce m refs :=
    fun le few => Nat.lt_of_lt_of_le few le
  have scarce1 : Scarce 1 g.held → full := fun few => scarce (fewer (by decide) few)
  have scarce2 : Scarce 2 g.held → full := fun few => scarce (fewer (by decide) few)
  unfold namex
  split
  · next absolute =>
    rw [if_pos absolute] at pinned
    apply (namexRoot_takes.frame (Q := Lands g.held g.held world g) _).mono
    · rintro result after ⟨arrives, sameCwd, -⟩
      rw [sameCwd, add_sub_cancel_right]
      exact ⟨arrives, fun _ => id⟩
    · unfold namexRoot
      rw [Prog.wp_bind]
      apply (iget_only_full firm root scarce1).mono
      rintro ip after ⟨gets, holding⟩
      exact namexFrom_only_full firm linked nonneg pinned scarce2 gets holding
  · next relative =>
    rw [if_neg relative] at pinned
    rw [Prog.wp_bind]
    apply ((only_full (myprocCwd_moves (accepts_benign firm.aligned) firm.sound firm.idle nonneg root
      cwdHeld) myprocCwd_holding firm.holding (myprocCwd_spared firm scarce1)).and
        myprocCwd_same).conseq (fun _ both => both.1) fun _ _ both => both.1
    rintro cwd middle ⟨⟨⟨g', moves, isCwd, -, more, held, inum⟩, holding⟩, same⟩
    have firm' := firm.moves moves holding
    have linked' := pinnedLinked_of_moves linked moves
    have inUse : 0 < (middle.mem.icache cwd).ref :=
      lt_of_lt_of_le held (moves.sound.cache.holds cwd)
    have scarce' : Scarce 2 g'.held → full := by
      intro few
      cases before : world.mem.cwd with
      | some old =>
          apply scarce2
          rwa [moves.held, isCwd, same old before, before, add_sub_cancel_right] at few
      | none =>
          apply scarce
          apply scarce_one cwd
          rw [moves.held, isCwd, before] at few
          simpa [oneOf] using few
    rw [Prog.wp_bind]
    apply (idup_takes_result.frame (idup_only_full firm' inUse)).mono
    rintro ip duplicated ⟨⟨⟨rfl, gets⟩, holding'⟩, sameCwd, -⟩
    rw [inum] at gets
    apply ((namexLoop_takes _ _ _ _ (Nat.lt_succ_self _)).frame (namexFrom_only_full firm' linked'
      (nonneg.trans more) (moves.pinned ▸ pinned) scarce' gets holding')).mono
    rintro result after ⟨⟨g'', walks, holding'', found⟩, stillCwd, -⟩
    rw [moves.files] at walks
    constructor
    · refine ⟨g'', ?_, holding'', moves.pinned ▸ found⟩
      rw [stillCwd, sameCwd, ← moves.held]
      exact moves.trans (walks.mono more le_rfl)
    · intro old isOld
      rw [stillCwd, sameCwd, isCwd, same old isOld]

end Namex

/-! ## Empty directories -/

/-- `isdirempty` tells whether an entry from the third on is in use. -/
theorem isdirempty_exact {P : Disk → Prop} {F : Stop → FsWorld → Prop} {world : FsWorld} {g : Ghost}
    {ip : Slot} {n : Nat} (sound : Sound ∅ world g) (caches : Caches world ip n) (owns : g.Owns n)
    (isDir : (g.view n).type = T_DIR) (whole : DIRENT_SIZE ∣ (g.view n).size.toNat) :
    (isdirempty ip ((g.view n).size.toNat / DIRENT_SIZE + 1) (2 * DIRENT_SIZE)).wp P F
      (fun empty after => after = world ∧ (empty = false ↔ ∃ off,
        ((g.view n).node world.disk).Used off ∧ 2 * DIRENT_SIZE ≤ off)) world := by
  have loop : ∀ fuel o, DIRENT_SIZE ∣ o → (g.view n).size.toNat < o + fuel * DIRENT_SIZE →
      (isdirempty ip fuel o).wp P F (fun empty after => after = world ∧ (empty = false ↔ ∃ off,
        ((g.view n).node world.disk).Used off ∧ o ≤ off)) world := by
    intro fuel
    induction fuel with
    | zero =>
        intro o _ enough
        refine ⟨rfl, iff_of_false Bool.noConfusion ?_⟩
        rintro ⟨off, used, beyond⟩
        have inside : off + DIRENT_SIZE ≤ (g.view n).size.toNat := used.1.2
        omega
    | succ fuel ih =>
        intro o aligned enough
        unfold isdirempty getInode
        simp only [Prog.wp_bind, Prog.wp_getMem, Prog.wp_pure, caches.din sound]
        split
        · next below =>
          have inside : o + DIRENT_SIZE ≤ (g.view n).size.toNat := by
            simp only [DIRENT_SIZE] at aligned whole ⊢
            omega
          rw [Prog.wp_bind]
          apply readDirent_spec sound caches owns isDir below
          · intro _
            dsimp only
            split
            · next inUse =>
              exact ⟨rfl, iff_of_true rfl ⟨o, ⟨⟨aligned, inside⟩, inUse⟩, le_rfl⟩⟩
            · next free =>
              have enough' : (g.view n).size.toNat < o + DIRENT_SIZE + fuel * DIRENT_SIZE := by
                rw [Nat.succ_mul] at enough
                omega
              apply (ih (o + DIRENT_SIZE) (Nat.dvd_add aligned (Nat.dvd_refl _)) enough').mono
              rintro empty _ ⟨rfl, tells⟩
              refine ⟨rfl, tells.trans ?_⟩
              constructor
              · rintro ⟨off, used, beyond⟩
                exact ⟨off, used, Nat.le_of_add_right_le beyond⟩
              · rintro ⟨off, used, beyond⟩
                refine ⟨off, used, ?_⟩
                have apart : off ≠ o := by
                  rintro rfl
                  exact used.2 (not_not.mp free)
                have offAligned := used.1.1
                simp only [DIRENT_SIZE] at aligned offAligned ⊢
                omega
          · exact fun ragged => absurd ragged (Nat.not_lt.mpr inside)
        · next beyond =>
          refine ⟨rfl, iff_of_false Bool.noConfusion ?_⟩
          rintro ⟨off, used, after⟩
          have inside : off + DIRENT_SIZE ≤ (g.view n).size.toNat := used.1.2
          simp only [DIRENT_SIZE] at inside
          omega
  apply loop _ _ (Nat.dvd_mul_left _ _)
  have less : (g.view n).size.toNat < (g.view n).size.toNat / DIRENT_SIZE * DIRENT_SIZE +
    DIRENT_SIZE := Nat.lt_div_mul_add (by decide)
  rw [Nat.add_mul, Nat.one_mul]
  omega

end Notux.Fs
