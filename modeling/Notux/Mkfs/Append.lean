import Notux.Fs.Directory
import Notux.Mkfs.Building
import Notux.Mkfs.Growth

/-!
# Appending to a file

`iappend` finds the block of every piece it writes in the way `bmap` does, and takes
the blocks that are missing.  A block beyond the end of the image is noticed when it
is read.
-/

namespace Notux.Mkfs

open Notux.Store Notux.Fs Notux.Proc

/-! ## Sectors -/

section Sectors

variable {image : Image} {F : Prop} {sec : Nat}

theorem rsect_spec {Q : Block → Image → Prop} (inside : sec < image.sectors)
    (rest : Q (image.disk sec) image) : Arrives (rsect sec) F Q image := by
  unfold rsect
  rw [arrives_bind, arrives_get, if_pos inside]
  exact rest

/-- A sector beyond the end of the image cannot be read. -/
theorem rsect_beyond {Q : Block → Image → Prop} (beyond : image.sectors ≤ sec) (failed : F) :
    Arrives (rsect sec) F Q image := by
  unfold rsect
  rw [arrives_bind, arrives_get, if_neg (Nat.not_lt.mpr beyond)]
  exact failed

theorem wsect_spec {Q : Unit → Image → Prop} {buf : Block} (rest : Q () (image.written sec buf)) :
    Arrives (wsect sec buf) F Q image :=
  rest

theorem takeBlock_spec {Q : Nat → Image → Prop}
    (rest : Q image.freeblock (image.taken image.disk)) : Arrives takeBlock F Q image :=
  rest

end Sectors

/-! ## The middle of an append -/

/-- In the middle of `iappend`: inode `n` stands for `node`, its tree has grown up to the
positions of height `h` of file block `bn`, and no other tree has changed. -/
structure Appending (kernel : Kernel) (n : Nat) (start : Image) (g₀ : Ghost) (node : Node)
    (upto bn h : Nat) (image : Image) (g : Ghost) : Prop where
  building : Building kernel image g
  noCredit : g₀.credit = 0
  writing : Writing ∅ n 1 (start.world kernel) g₀ node upto (image.world kernel) g
  grown : Grown image.bitmapped (g.view n) bn h
  others : ∀ i, i ≠ n → g₀.Owns i → g.view i = g₀.view i ∧ ∀ p, p.Valid fileShape →
    (g.view i).blockAt image.bitmapped p = (g₀.view i).blockAt start.bitmapped p
  owns : ∀ i, g.Owns i ↔ g₀.Owns i
  freeinode : image.freeinode = start.freeinode
  stray : image.stray = start.stray

section Middle

variable {kernel : Kernel} {n : Nat} {start image image' : Image} {g₀ g g' : Ghost} {node : Node}
  {upto bn h : Nat}

/-- A missing block on the way to the file block has been taken. -/
theorem Appending.take {p : Pos}
    (appending : Appending kernel n start g₀ node upto bn (p.height fileShape + 1) image g)
    (covers : Covers p bn) (missing : (g.view n).blockAt image.bitmapped p = 0)
    (takes : Takes kernel n p image g image' g') :
    firstBlock p = bn ∧
      Appending kernel n start g₀ node upto bn (p.height fileShape) image' g' := by
  have nonzero : image.freeblock ≠ 0 := takes.maps.present
  obtain ⟨starts, grown⟩ := appending.grown.missing covers missing nonzero takes.places
  have wide : Maps ∅ n 3 p (image.world kernel) g image.freeblock (image'.world kernel) g' :=
    { takes.maps with grows := takes.maps.grows.mono (by decide) }
  have writing := appending.writing.grow wide
  refine ⟨starts, takes.building, appending.noCredit, ?_, grown, fun i differ owns => ?_, fun i => ?_, ?_, ?_⟩
  · have free : g₀.credit ≤ g'.credit + 1 := by
      rw [appending.noCredit]
      exact Nat.zero_le _
    exact { writing with credit := free, taken := nofun }
  · obtain ⟨view, places⟩ := appending.others i differ owns
    have still := (appending.owns i).mpr owns
    refine ⟨(takes.maps.grows.others i differ).trans view, fun q valid => ?_⟩
    exact (takes.others i differ still q valid).trans (places q valid)
  · exact (takes.maps.grows.owns i).trans (appending.owns i)
  · exact takes.freeinode.trans appending.freeinode
  · exact takes.stray.trans appending.stray

/-- The block at a position has been found or taken. -/
structure Found (kernel : Kernel) (n : Nat) (start : Image) (g₀ : Ghost) (node : Node)
    (upto bn : Nat) (p : Pos) (used b : Nat) (image : Image) (g : Ghost) : Prop where
  appending : Appending kernel n start g₀ node upto bn (p.height fileShape) image g
  place : (g.view n).blockAt image.bitmapped p = b
  present : b ≠ 0
  freeblock : image.freeblock = used + if firstBlock p = bn then 1 else 0

theorem Appending.found {p : Pos}
    (appending : Appending kernel n start g₀ node upto bn (p.height fileShape + 1) image g)
    (covers : Covers p bn) (present : (g.view n).blockAt image.bitmapped p ≠ 0) :
    Found kernel n start g₀ node upto bn p image.freeblock
      ((g.view n).blockAt image.bitmapped p) image g := by
  obtain ⟨before, grown⟩ := appending.grown.present covers present
  refine ⟨{ appending with grown }, rfl, present, ?_⟩
  rw [if_neg (by omega)]
  rfl

theorem Appending.took {p : Pos}
    (appending : Appending kernel n start g₀ node upto bn (p.height fileShape + 1) image g)
    (covers : Covers p bn) (missing : (g.view n).blockAt image.bitmapped p = 0)
    (takes : Takes kernel n p image g image' g') :
    Found kernel n start g₀ node upto bn p image.freeblock image.freeblock image' g' := by
  obtain ⟨starts, after⟩ := appending.take covers missing takes
  refine ⟨after, takes.maps.at_p, takes.maps.present, ?_⟩
  rw [if_pos starts]
  exact takes.freeblock

variable {F : Prop}

/-- `takeAddr` finds or takes a root of the tree.  A block that does not exist is
returned like any other. -/
theorem takeAddr_spec (mounted : Mounted kernel) {r : Nat}
    (appending : Appending kernel n start g₀ node upto bn
      ((Pos.root r).height fileShape + 1) image g)
    (covers : Covers (.root r) bn)
    (full : firstBlock (.root r) = bn → FSSIZE ≤ image.freeblock → F)
    {Q : Nat × Dinode → Image → Prop}
    (found : ∀ b image' g', Found kernel n start g₀ node upto bn (.root r) image.freeblock b
      image' g' → Q (b, g'.view n) image')
    (beyond : ∀ b din image', F → image'.sectors ≤ b → Q (b, din) image') :
    Arrives (takeAddr (g.view n) r) F Q image := by
  unfold takeAddr
  split
  · next missing =>
    rw [arrives_bind]
    apply takeBlock_spec
    by_cases room : image.freeblock < FSSIZE
    · obtain ⟨g', takes, view⟩ := appending.building.take_root mounted room
        appending.writing.owns appending.writing.only covers.valid missing
      rw [← view]
      exact found _ _ _ (appending.took covers missing takes)
    · have starts : firstBlock (.root r) = bn := by
        have start := (not_congr (appending.grown _ covers.valid)).mp (not_not.mpr missing)
        have below := covers.starts
        omega
      have failed := full starts (Nat.not_lt.mp room)
      refine beyond _ _ _ failed ?_
      rw [show (image.taken image.disk).sectors = FSSIZE from appending.building.sectors]
      exact Nat.not_lt.mp room
  · next present => exact found _ _ _ (appending.found covers present)

/-- A block of the tree can be read. -/
theorem Building.read (building : Building kernel image g) (owns : g.Owns n) {p : Pos}
    (valid : p.Valid fileShape) (present : (g.view n).blockAt image.bitmapped p ≠ 0)
    {Q : Block → Image → Prop}
    (rest : Q (image.bitmapped ((g.view n).blockAt image.bitmapped p)) image) :
    Arrives (rsect ((g.view n).blockAt image.bitmapped p)) F Q image := by
  have range := building.present_range owns valid present
  have room := building.freeblock_le
  apply rsect_spec
  · rw [building.sectors]
    omega
  · rwa [← bitmapped_of_notBitmap image (Or.inr range.1)]

/-- Writing a sector of the image after a block has been taken. -/
theorem written_taken {sec : Nat} (inside : sec < image.sectors) (buf : Block) :
    (image.taken image.disk).written sec buf =
      image.taken (Function.update image.disk sec buf) := by
  have size : max image.sectors (sec + 1) = image.sectors := by omega
  simp only [Image.taken, Image.written, size]

/-- `takeEntry` finds or takes an entry of a block of the tree. -/
theorem takeEntry_spec {parent : Pos} {j : Nat}
    (appending : Appending kernel n start g₀ node upto bn
      ((Pos.child parent j).height fileShape + 1) image g)
    (covers : Covers (.child parent j) bn)
    (parentPresent : (g.view n).blockAt image.bitmapped parent ≠ 0)
    (full : firstBlock (.child parent j) = bn → FSSIZE ≤ image.freeblock → F)
    {Q : Nat → Image → Prop}
    (found : ∀ b image' g', Found kernel n start g₀ node upto bn (.child parent j)
      image.freeblock b image' g' → g'.view n = g.view n → Q b image')
    (beyond : ∀ b image', F → image'.sectors ≤ b → Q b image') :
    Arrives (takeEntry ((g.view n).blockAt image.bitmapped parent) j) F Q image := by
  have owns := appending.writing.owns
  have building := appending.building
  have valid := covers.valid
  have place := blockAt_child parentPresent j
  have range := building.present_range owns valid.parent parentPresent
  unfold takeEntry
  rw [arrives_bind]
  apply building.read owns valid.parent parentPresent
  split
  · next missing =>
    rw [arrives_bind]
    apply takeBlock_spec
    rw [arrives_bind]
    apply wsect_spec
    have contents := bitmapped_of_notBitmap image (Or.inr range.1)
    have inside : (g.view n).blockAt image.bitmapped parent < image.sectors := by
      rw [building.sectors]
      exact Nat.lt_of_lt_of_le range.2 building.freeblock_le
    rw [contents, written_taken inside]
    by_cases room : image.freeblock < FSSIZE
    · obtain ⟨g', takes, view⟩ := building.take_child room owns valid parentPresent
        (contents ▸ missing)
      exact found _ _ _ (appending.took covers (place.trans missing) takes) view
    · have starts : firstBlock (.child parent j) = bn := by
        have start := (not_congr (appending.grown _ valid)).mp
          (not_not.mpr (place.trans missing))
        have below := covers.starts
        omega
      have failed := full starts (Nat.not_lt.mp room)
      refine beyond _ _ failed ?_
      rw [show (image.taken _).sectors = FSSIZE from building.sectors]
      exact Nat.not_lt.mp room
  · next present =>
    have present' : (g.view n).blockAt image.bitmapped (.child parent j) ≠ 0 :=
      place.symm ▸ present
    rw [← place]
    exact found _ _ _ (appending.found covers present') rfl

theorem takeEntry_beyond {addr i : Nat} {Q : Nat → Image → Prop}
    (beyond : image.sectors ≤ addr) (failed : F) : Arrives (takeEntry addr i) F Q image := by
  unfold takeEntry
  rw [arrives_bind]
  exact rsect_beyond beyond failed

/-- Where no position is of a height in between, the height does not matter. -/
theorem Appending.skip (appending : Appending kernel n start g₀ node upto bn 3 image g)
    (none : NoneAbove bn h) : Appending kernel n start g₀ node upto bn (h + 1) image g :=
  { appending with grown := appending.grown.skip none }

/-- `appendBlock` takes the blocks that the next file block needs. -/
theorem appendBlock_spec (mounted : Mounted kernel)
    (appending : Appending kernel n start g₀ node upto bn 3 image g) (inside : bn < MAXFILE)
    (full : FSSIZE < image.freeblock + newBlocks bn → F)
    {Q : Nat × Dinode → Image → Prop}
    (found : ∀ image' g', Appending kernel n start g₀ node upto bn 0 image' g' →
      (g'.view n).blockAt image'.bitmapped (posOf bn) ≠ 0 →
      image'.freeblock = image.freeblock + newBlocks bn →
      Q ((g'.view n).blockAt image'.bitmapped (posOf bn), g'.view n) image')
    (beyond : ∀ b din image', F → image'.sectors ≤ b → Q (b, din) image') :
    Arrives (appendBlock (g.view n) bn) F Q image := by
  unfold appendBlock
  unfold posOf at found
  split
  · next direct =>
    simp only [direct, if_true] at found
    have height := height_direct bn direct
    have starts := firstBlock_direct bn direct
    rw [newBlocks_direct direct] at full found
    refine takeAddr_spec (r := bn) mounted
      (height.symm ▸ appending.skip (noneAbove_direct direct)) (covers_direct direct)
      (fun _ room => full (by omega)) ?_ beyond
    rintro b image' g' ⟨after, place, present, used⟩
    rw [← place]
    rw [height] at after
    rw [starts, if_pos rfl] at used
    exact found image' g' after (place.symm ▸ present) used
  · next indirect =>
    simp only [indirect, if_false] at found
    simp only [NDIRECT] at indirect
    split
    · next near =>
      have entry : bn - NDIRECT < NINDIRECT := by
        simp only [NDIRECT, NINDIRECT] at *
        omega
      simp only [entry, if_true] at found
      simp only [NDIRECT, NINDIRECT] at near
      have place : 12 + (bn - NDIRECT) = bn := by
        simp only [NDIRECT]
        omega
      rw [newBlocks_entry (by omega) near] at full found
      rw [arrives_bind]
      refine takeAddr_spec (r := NDIRECT) mounted (appending.skip (noneAbove_single near))
        (covers_single (by omega) near)
        (fun starts room => full ?_) ?_ ?_
      · rw [firstBlock_single] at starts
        rw [if_pos starts]
        omega
      · rintro addr first g₁ ⟨firstAppending, rfl, firstPresent, firstUsed⟩
        rw [firstBlock_single] at firstUsed
        rw [arrives_bind]
        refine takeEntry_spec (j := bn - NDIRECT) firstAppending
          (by simpa only [place] using covers_entry entry) firstPresent
          (fun _ room => full (by omega)) ?_ fun b image' failed outside => beyond _ _ _ failed outside
        rintro b image' g' ⟨after, rfl, present, used⟩ view
        rw [← view]
        rw [firstBlock_entry, if_pos place] at used
        exact found image' g' after present (by omega)
      · intro b din image' failed outside
        rw [arrives_bind]
        exact takeEntry_beyond outside failed
    · next far =>
      have noEntry : ¬ bn - NDIRECT < NINDIRECT := by
        simp only [NDIRECT, NINDIRECT] at *
        omega
      simp only [noEntry, if_false] at found
      simp only [NDIRECT, NINDIRECT] at far
      obtain ⟨j, tableIs⟩ : ∃ j, j = (bn - NDIRECT - NINDIRECT) / NINDIRECT := ⟨_, rfl⟩
      obtain ⟨k, entryIs⟩ : ∃ k, k = (bn - NDIRECT - NINDIRECT) % NINDIRECT := ⟨_, rfl⟩
      dsimp only
      rw [← tableIs, ← entryIs] at found ⊢
      have place : bn = 140 + j * 128 + k := by
        simp only [NDIRECT, NINDIRECT] at *
        omega
      have tableSmall : j < NINDIRECT := by
        simp only [MAXFILE, NDINDIRECT, NDIRECT, NINDIRECT] at *
        omega
      have entrySmall : k < NINDIRECT := by
        rw [entryIs]
        exact Nat.mod_lt _ (by decide)
      have table := covers_table tableSmall entrySmall
      have leaf := covers_leaf tableSmall entrySmall
      rw [← place] at table leaf
      rw [newBlocks_leaf place entrySmall] at full found
      rw [arrives_bind]
      refine takeAddr_spec (r := NDIRECT + 1) mounted (appending.skip (noneAbove_double bn))
        (covers_double (by omega)) (fun starts room => full ?_) ?_ ?_
      · rw [firstBlock_double] at starts
        rw [if_pos starts]
        omega
      · rintro addr first g₁ ⟨firstAppending, rfl, firstPresent, firstUsed⟩
        rw [firstBlock_double] at firstUsed
        rw [arrives_bind]
        refine takeEntry_spec (j := j) firstAppending table firstPresent
          (fun starts room => full ?_) ?_ ?_
        · rw [firstBlock_table] at starts
          rw [if_pos starts]
          omega
        · rintro addr second g₂ ⟨secondAppending, rfl, secondPresent, secondUsed⟩ view
          rw [firstBlock_table] at secondUsed
          rw [arrives_bind, ← view]
          refine takeEntry_spec (j := k) secondAppending leaf secondPresent
            (fun _ room => full (by omega)) ?_
            fun b image' failed outside => beyond _ _ _ failed outside
          rintro b image' g' ⟨after, rfl, present, used⟩ view
          rw [← view]
          rw [firstBlock_leaf, if_pos place.symm] at used
          exact found image' g' after present (by omega)
        · intro b image' failed outside
          rw [arrives_bind]
          exact takeEntry_beyond outside failed
      · intro b din image' failed outside
        rw [arrives_bind]
        exact takeEntry_beyond outside failed

end Middle

/-! ## Blocks that are there -/

section Present

variable {kernel : Kernel} {n : Nat} {image : Image} {g : Ghost} {F : Prop}

theorem takeAddr_present {din : Dinode} {r : Nat} (present : din.addr r ≠ 0)
    {Q : Nat × Dinode → Image → Prop} (rest : Q (din.addr r, din) image) :
    Arrives (takeAddr din r) F Q image := by
  unfold takeAddr
  rw [if_neg present]
  exact rest

theorem takeEntry_present (building : Building kernel image g) (owns : g.Owns n) {parent : Pos}
    {j : Nat} (valid : (Pos.child parent j).Valid fileShape)
    (present : (g.view n).blockAt image.bitmapped (.child parent j) ≠ 0)
    {Q : Nat → Image → Prop}
    (rest : Q ((g.view n).blockAt image.bitmapped (.child parent j)) image) :
    Arrives (takeEntry ((g.view n).blockAt image.bitmapped parent) j) F Q image := by
  have parentPresent := parent_present present
  rw [blockAt_child parentPresent] at present rest
  unfold takeEntry
  rw [arrives_bind]
  apply building.read owns valid.parent parentPresent
  rw [if_neg present]
  exact rest

/-- `appendBlock` changes nothing where the file has a block. -/
theorem appendBlock_present (building : Building kernel image g) (owns : g.Owns n) {bn : Nat}
    (present : (g.view n).blockAt image.bitmapped (posOf bn) ≠ 0)
    {Q : Nat × Dinode → Image → Prop}
    (rest : Q ((g.view n).blockAt image.bitmapped (posOf bn), g.view n) image) :
    Arrives (appendBlock (g.view n) bn) F Q image := by
  have valid := (isData_posOf (posOf_valid_of_ne_zero present)).1
  unfold posOf at present rest valid
  unfold appendBlock
  split
  · next direct =>
    rw [if_pos direct] at present rest
    exact takeAddr_present present rest
  · next beyond =>
    rw [if_neg beyond] at present rest valid
    by_cases near : bn < NDIRECT + NINDIRECT
    · have entry : bn - NDIRECT < NINDIRECT := by omega
      rw [if_pos entry] at present rest valid
      rw [if_pos near, arrives_bind]
      apply takeAddr_present (parent_present present)
      rw [arrives_bind]
      exact takeEntry_present building owns valid present rest
    · have noEntry : ¬ bn - NDIRECT < NINDIRECT := by omega
      rw [if_neg noEntry] at present rest valid
      rw [if_neg near]
      dsimp only
      rw [arrives_bind]
      apply takeAddr_present (parent_present (parent_present present))
      rw [arrives_bind]
      apply takeEntry_present building owns valid.parent (parent_present present)
      rw [arrives_bind]
      exact takeEntry_present building owns valid present rest

end Present

/-! ## The loop -/

/-- What stands in a directory beyond its size names nothing. -/
theorem entriesSound_beyond {g : Ghost} {i : Nat} {node : Node} (entries : EntriesSound g i node)
    {off : Nat} (beyond : node.size.toNat ≤ off) (m : Nat) (src : Nat → Byte) :
    EntriesSound g i { node with bytes := Fs.overwrite node.bytes off m src } := by
  intro isDir
  obtain ⟨multiple, sound⟩ := entries isDir
  refine ⟨multiple, fun other aligned inside => ?_⟩
  have same : ({ node with bytes := Fs.overwrite node.bytes off m src } : Node).dirent other =
      node.dirent other := by
    refine ofBytes_congr fun j small => ?_
    change Fs.overwrite node.bytes off m src (other + j) = node.bytes (other + j)
    unfold Fs.overwrite
    change other + DIRENT_SIZE ≤ node.size.toNat at inside
    rw [if_neg (by omega)]
  rw [same]
  exact sound other aligned inside

theorem getD_drop (p : List Byte) (m i : Nat) : (p.drop m).getD i 0 = p.getD (m + i) 0 := by
  simp [List.getD]

section Loop

variable {kernel : Kernel} {n : Nat} {start image : Image} {g₀ g : Ghost} {node : Node}
  {upto bn h : Nat}

/-- A piece is written into a block of the file. -/
theorem Appending.write (appending : Appending kernel n start g₀ node upto bn h image g)
    {off m : Nat} (src : Nat → Byte) (below : off ≤ upto) (fits : off % BSIZE + m ≤ BSIZE)
    (present : (g.view n).blockAt image.bitmapped (posOf (off / BSIZE)) ≠ 0)
    (entries : EntriesSound g₀ n { node with bytes := Fs.overwrite node.bytes off m src }) :
    Appending kernel n start g₀ { node with bytes := Fs.overwrite node.bytes off m src }
      (max upto (off + m)) bn h
      (image.written ((g.view n).blockAt image.bitmapped (posOf (off / BSIZE)))
        ((image.bitmapped ((g.view n).blockAt image.bitmapped (posOf (off / BSIZE)))).splice
          (off % BSIZE) m src)) g := by
  have building := appending.building
  have owns := appending.writing.owns
  have valid := (isData_posOf (posOf_valid_of_ne_zero present)).1
  have range := building.present_range owns valid present
  have notBitmap : NotBitmap ((g.view n).blockAt image.bitmapped (posOf (off / BSIZE))) :=
    Or.inr range.1
  have written := appending.writing.write src below fits present entries
  have places : ∀ i, g.Owns i → ∀ p, p.Valid fileShape →
      (g.view i).blockAt (image.written ((g.view n).blockAt image.bitmapped (posOf (off / BSIZE)))
        ((image.bitmapped ((g.view n).blockAt image.bitmapped (posOf (off / BSIZE)))).splice
          (off % BSIZE) m src)).bitmapped p = (g.view i).blockAt image.bitmapped p := by
    intro i owned p inTree
    rw [show (image.written _ _).bitmapped = _ from bitmapped_write image notBitmap _ _]
    exact blockAt_writeData building.sound.blocks owns present _ owned inTree
  exact
    { building := building.write range.1 range.2 written.sound
      noCredit := appending.noCredit
      writing := by rwa [world_written kernel image notBitmap]
      grown := appending.grown.congr (places n owns)
      others := fun i differ owned => by
        obtain ⟨view, same⟩ := appending.others i differ owned
        refine ⟨view, fun p inTree => ?_⟩
        exact (places i ((appending.owns i).mpr owned) p inTree).trans (same p inTree)
      owns := appending.owns
      freeinode := appending.freeinode
      stray := appending.stray }

/-- The block for the next piece, and what it costs. -/
theorem nextBlock_spec {F : Prop} (mounted : Mounted kernel) {off : Nat}
    (appending : Appending kernel n start g₀ node off (dataBlocks off) 3 image g)
    (inside : off / BSIZE < MAXFILE)
    (full : FSSIZE + treeSize (dataBlocks off) < image.freeblock + treeSize (off / BSIZE + 1) → F)
    {Q : Nat × Dinode → Image → Prop}
    (found : ∀ image' g', Appending kernel n start g₀ node off (off / BSIZE + 1) 3 image' g' →
      (g'.view n).blockAt image'.bitmapped (posOf (off / BSIZE)) ≠ 0 →
      image'.freeblock + treeSize (dataBlocks off) =
        image.freeblock + treeSize (off / BSIZE + 1) →
      Q ((g'.view n).blockAt image'.bitmapped (posOf (off / BSIZE)), g'.view n) image')
    (beyond : ∀ b din image', F → image'.sectors ≤ b → Q (b, din) image') :
    Arrives (appendBlock (g.view n) (off / BSIZE)) F Q image := by
  by_cases aligned : off % BSIZE = 0
  · rw [dataBlocks_aligned aligned] at appending full found
    have grows := treeSize_succ (off / BSIZE)
    refine appendBlock_spec mounted appending inside (fun tooLarge => full (by omega)) ?_ beyond
    intro image' g' after present used
    refine found image' g' { after with grown := grown_succ.mp after.grown } present ?_
    omega
  · rw [dataBlocks_ragged aligned] at appending full found
    have present : (g.view n).blockAt image.bitmapped (posOf (off / BSIZE)) ≠ 0 := by
      apply appending.writing.full
      simp only [BSIZE] at *
      omega
    exact appendBlock_present appending.building appending.writing.owns present
      (found image g appending present rfl)

theorem appendLoop_spec {F : Prop} (mounted : Mounted kernel) {fuel off : Nat} {p : List Byte}
    (enough : p.length ≤ fuel)
    (appending : Appending kernel n start g₀ node off (dataBlocks off) 3 image g)
    (below : node.size.toNat ≤ off) (entries : EntriesSound g₀ n node)
    (bound : off ≤ MAXFILE * BSIZE)
    (full : FSSIZE + treeSize (dataBlocks off) <
      image.freeblock + treeSize (dataBlocks (off + p.length)) → F)
    (long : MAXFILE * BSIZE < off + p.length → F)
    {Q : Dinode × Nat → Image → Prop}
    (done : ∀ image' g', Appending kernel n start g₀
        { node with bytes := Fs.overwrite node.bytes off p.length fun i => p.getD i 0 }
        (off + p.length) (dataBlocks (off + p.length)) 3 image' g' →
      image'.freeblock + treeSize (dataBlocks off) =
        image.freeblock + treeSize (dataBlocks (off + p.length)) →
      off + p.length ≤ MAXFILE * BSIZE → Q (g'.view n, off + p.length) image') :
    Arrives (appendLoop fuel (g.view n) off p) F Q image := by
  induction fuel generalizing off p image g node with
  | zero =>
      have empty : p = [] := List.eq_nil_of_length_eq_zero (by omega)
      subst empty
      simp only [List.length_nil, Nat.add_zero, overwrite_zero] at done
      exact done image g appending rfl bound
  | succ fuel ih =>
      unfold appendLoop
      split
      · next empty =>
        subst empty
        simp only [List.length_nil, Nat.add_zero, overwrite_zero] at done
        exact done image g appending rfl bound
      · next more =>
        have positive : 0 < p.length := List.length_pos_of_ne_nil more
        split
        · next inside =>
          obtain ⟨m, piece⟩ : ∃ m, m = min p.length (BSIZE - off % BSIZE) := ⟨_, rfl⟩
          rw [← piece]
          have room : off % BSIZE < BSIZE := Nat.mod_lt _ (by decide)
          have some_m : 0 < m := by omega
          have fits : off % BSIZE + m ≤ BSIZE := by omega
          have within : m ≤ p.length := by omega
          have ends := dataBlocks_piece some_m fits
          have far : treeSize (off / BSIZE + 1) ≤ treeSize (dataBlocks (off + p.length)) := by
            rw [← ends]
            exact treeSize_mono (dataBlocks_mono (by omega))
          rw [arrives_bind]
          refine nextBlock_spec mounted appending inside (fun tooLarge => full (by omega)) ?_ ?_
          · intro image' g' after present used
            have owns := after.writing.owns
            have valid := (isData_posOf (posOf_valid_of_ne_zero present)).1
            have written := after.write (fun i => p.getD i 0) (Nat.le_refl off) fits present
              (entriesSound_beyond entries below m _)
            rw [Nat.max_eq_right (Nat.le_add_right off m), ← ends] at written
            have rest : off + m + (p.drop m).length = off + p.length := by
              rw [List.length_drop]
              omega
            dsimp only
            rw [arrives_bind]
            apply after.building.read owns valid present
            rw [arrives_bind]
            apply wsect_spec
            refine ih (by rw [List.length_drop]; omega) written
              (Nat.le_trans below (Nat.le_add_right _ _)) (entriesSound_beyond entries below m _) ?_ ?_ ?_ ?_
            · simp only [BSIZE] at *
              omega
            · rw [rest, ends]
              intro tooLarge
              change FSSIZE + _ < image'.freeblock + _ at tooLarge
              exact full (by omega)
            · rwa [rest]
            · intro final gFinal last count end_bound
              rw [rest] at last count end_bound ⊢
              refine done final gFinal ?_ ?_ end_bound
              · have joined := overwrite_overwrite node.bytes off m (p.drop m).length
                  fun i => p.getD i 0
                rw [show m + (p.drop m).length = p.length by omega] at joined
                rw [← joined]
                simpa only [getD_drop] using last
              · change final.freeblock + _ = image'.freeblock + _ at count
                rw [ends] at count
                omega
          · intro b din image' failed beyond
            dsimp only
            rw [arrives_bind]
            exact rsect_beyond beyond failed
        · next outside =>
          refine long ?_
          simp only [BSIZE] at *
          omega

end Loop

end Notux.Mkfs
