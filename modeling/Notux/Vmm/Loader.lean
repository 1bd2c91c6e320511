import Notux.Vmm.Brk
import Notux.Vmm.Copy

/-!
# The ELF loader, access by access

`load_elf_into_process` once more, with every byte it reads from the file, every
byte it writes through `phys` and every 64-bit computation on the way noted.  The
loops run in 64-bit counters and may run out of rounds, so that ending is
something to prove.  Whatever the file holds, no access leaves its bounds, and
the loader does to the page tables what the loader without notes does.

What is printed for debugging is left out, and with it the reads of the magic
number and of `e_entry` (bytes 0 to 3 and 24 to 31, within the header that has
passed its size check).
-/

namespace Notux.Vmm.Loader

open Notux.Store

/-! ## What is noted -/

/-- Something the loader did. -/
inductive Access where
  /-- `file[index]` was read. -/
  | readFile (index : Nat)
  /-- A byte was written while `frame` was the frame handed out last. -/
  | writeFrame (frame addr : Addr)
  /-- A number was computed and used; in the integers it would have been `exact`. -/
  | compute (value : Addr) (exact : Int)
  /-- The check "src_off outside" gave the file up. -/
  | srcOffOutside
  /-- The check "copy outside" gave the file up. -/
  | copyOutside

/-- An access that is in bounds. -/
def Access.InBounds (fileSize : Addr) : Access → Prop
  | readFile index => index < fileSize.toNat
  | writeFrame frame addr => frame.toNat ≤ addr.toNat ∧ addr.toNat < frame.toNat + PAGE_SIZE
  | compute value exact => (value.toNat : Int) = exact
  | srcOffOutside => False
  | copyOutside => False

/-- The page tables, the bytes in the frames (at their physical addresses, and apart
from the page tables), the frame handed out last, and the accesses so far, the
latest first. -/
structure LoadState where
  vm : Vm
  bytes : Addr → BitVec 8
  frame : Addr
  trace : List Access

abbrev LoaderM := StateT LoadState Option

/-- All accesses so far are in bounds. -/
def Safe (fileSize : Addr) (state : LoadState) : Prop :=
  ∀ access ∈ state.trace, access.InBounds fileSize

def note (access : Access) : LoaderM Unit :=
  modify fun state => { state with trace := access :: state.trace }

/-- Run code that works on the page tables. -/
def onVm {α : Type} (program : VmM α) : LoaderM α := do
  let state ← get
  let (value, vm) := program.run state.vm
  set { state with vm }
  return value

/-- `pmm_alloc_page`, noting the frame. -/
def allocPage : LoaderM Addr := do
  let phys ← onVm pmmAllocPage
  modify fun state => { state with frame := phys }
  return phys

/-- Write a byte of a frame that is mapped onto itself. -/
def writeByte (addr : Addr) (value : BitVec 8) : LoaderM Unit := do
  let state ← get
  note (.writeFrame state.frame addr)
  modify fun state => { state with bytes := assign state.bytes addr value }

def add (first second : Addr) : LoaderM Addr := do
  note (.compute (first + second) (first.toNat + second.toNat))
  return first + second

def sub (first second : Addr) : LoaderM Addr := do
  note (.compute (first - second) (first.toNat - second.toNat))
  return first - second

/-- `file[index]`. -/
def readByte (file : Nat → BitVec 8) (index : Nat) : LoaderM (BitVec 8) := do
  note (.readFile index)
  return file index

/-- A little-endian field of `count` bytes at an offset. -/
def field (file : Nat → BitVec 8) : Nat → Nat → LoaderM Nat
  | _, 0 => return 0
  | off, count + 1 => do
      let byte ← readByte file off
      let rest ← field file (off + 1) count
      return byte.toNat + 256 * rest

/-! ## The loader -/

/-- The header checks, in their order: `e_phoff` and `e_phnum` if all pass. -/
def checkHeader (file : Nat → BitVec 8) (fileSize : Addr) :
    LoaderM (Option (Addr × BitVec 16)) := do
  if fileSize < 64 then return none
  else if (← readByte file 0) ≠ 0x7F then return none
  else if (← readByte file 1) ≠ 0x45 then return none
  else if (← readByte file 2) ≠ 0x4C then return none
  else if (← readByte file 3) ≠ 0x46 then return none
  else if (← readByte file 4) ≠ 2 then return none
  else if (← readByte file 5) ≠ 1 then return none
  else if (← field file 18 2) ≠ 62 then return none
  else
    let eType ← field file 16 2
    if eType ≠ 2 ∧ eType ≠ 3 then return none
    else
      let ePhnum ← field file 56 2
      if ePhnum = 0 then return none
      else
        let ePhentsize ← field file 54 2
        if ePhentsize ≠ PHDR_SIZE then return none
        else
          let phSize := BitVec.ofNat 64 ePhnum * BitVec.ofNat 64 ePhentsize
          let ePhoff := BitVec.ofNat 64 (← field file 32 8)
          if ePhoff > fileSize then return none
          else if phSize > (← sub fileSize ePhoff) then return none
          else return some (ePhoff, BitVec.ofNat 16 ePhnum)

/-- The rest of a program header, once it turned out to be a `PT_LOAD` one. -/
def readPhdr (file : Nat → BitVec 8) (off pType : Nat) : LoaderM Phdr := do
  let pFlags ← field file (off + 4) 4
  let pOffset ← field file (off + 8) 8
  let pVaddr ← field file (off + 16) 8
  let pFilesz ← field file (off + 32) 8
  let pMemsz ← field file (off + 40) 8
  return { pType, pFlags
           pOffset := BitVec.ofNat 64 pOffset
           pVaddr := BitVec.ofNat 64 pVaddr
           pFilesz := BitVec.ofNat 64 pFilesz
           pMemsz := BitVec.ofNat 64 pMemsz }

section

variable (rounds : Nat) (pml4 : Addr) (file : Nat → BitVec 8) (fileSize : Addr)

/-- The part of a page that comes from the file; false if a check gives it up. -/
def copyPage (ph : Phdr) (phys page : Addr) : LoaderM Bool := do
  let copyStart := if page < ph.pVaddr then ph.pVaddr else page
  let fileEnd ← add ph.pVaddr ph.pFilesz
  let pageLimit ← add page 0x1000
  let copyEnd := if pageLimit > fileEnd then fileEnd else pageLimit
  if copyStart ≥ copyEnd then return true
  else
    let len ← sub copyEnd copyStart
    let inSegment ← sub copyStart ph.pVaddr
    let srcOff ← add ph.pOffset inSegment
    if srcOff > fileSize then
      note .srcOffOutside
      return false
    else
      let left ← sub fileSize srcOff
      if len > left then
        note .copyOutside
        return false
      else
        let inPage ← sub copyStart page
        forBelow rounds len fun j => do
          let byte ← readByte file (srcOff.toNat + j.toNat)
          writeByte (phys + inPage + j) byte
        return true

/-- One round of the page loop; false if the loader gives up. -/
def loadPage (ph : Phdr) (page : Addr) : LoaderM Bool := do
  let phys ← allocPage
  if phys = 0 then return false
  else
    forBelow rounds 0x1000 fun i => writeByte (phys + i) 0
    onVm (vmmMapPage pml4 page phys ph.pageFlags)
    copyPage rounds file fileSize ph phys page

/-- The page loop. -/
def loadPages (ph : Phdr) (pageEnd : Addr) : Addr → LoaderM Bool :=
  loop (fun page => do
    if page < pageEnd then
      if ← loadPage rounds pml4 file fileSize ph page then
        return .inl (← add page 0x1000)
      else return .inr false
    else return .inr true) rounds

/-- One `PT_LOAD` segment. -/
def loadSegment (ph : Phdr) : LoaderM Bool := do
  if ph.pFilesz > ph.pMemsz then return false
  else if ph.pOffset > fileSize then return false
  else if ph.pFilesz > (← sub fileSize ph.pOffset) then return false
  else if ph.segEnd < ph.pVaddr then return false
  else if ph.pMemsz = 0 then return true
  else
    -- The sum that has passed the overflow check becomes a bound only here.
    let segEnd ← add ph.pVaddr ph.pMemsz
    if segEnd > 0xFFFFFFFFFFFFF000 then return false
    else
      let pageEnd := (← add segEnd 0xFFF) &&& PAGE_MASK
      if pageEnd < segEnd then return false
      else loadPages rounds pml4 file fileSize ph pageEnd ph.pageStart

/-- The loop over the program headers: how many segments were loaded. -/
def loadSegments (ePhoff : Addr) (ePhnum : BitVec 16) : LoaderM (Option Nat) :=
  loop (fun (i, segments) => do
    if i < ePhnum then
      let off := ePhoff.toNat + i.toNat * PHDR_SIZE
      let pType ← field file off 4
      if pType ≠ 1 then return .inl (i + 1, segments)
      else
        let ph ← readPhdr file off pType
        if ← loadSegment rounds pml4 file fileSize ph then return .inl (i + 1, segments + 1)
        else return .inr none
    else return .inr (some segments)) rounds ((0 : BitVec 16), 0)

/-- `load_elf_into_process`, with the `pml4` of `proc`; either pointer may be
null. -/
def loadElfIntoProcess (proc : Option Addr) (file : Option (Nat → BitVec 8)) : LoaderM Int := do
  match proc, file with
  | none, _ => return -1
  | some _, none => return -1
  | some pml4, some file =>
      if pml4 = 0 then return -1
      else
        match ← checkHeader file fileSize with
        | none => return -1
        | some (ePhoff, ePhnum) =>
            match ← loadSegments rounds pml4 file fileSize ePhoff ePhnum with
            | none => return -1
            | some segments => if segments = 0 then return -1 else return 0

end

/-! ## What a step leaves alone -/

/-- The loader does not run out of rounds, and arrives at a value and a state in
`Q`. -/
structure Ends {α : Type} (program : LoaderM α) (Q : α → LoadState → Prop) (state : LoadState) :
    Prop where
  arrives : Arrives program False Q state

section

variable {α β : Type} {program : LoaderM α} {P : α → LoadState → Prop} {state : LoadState}

theorem Ends.mono {Q : α → LoadState → Prop} (ends : Ends program P state)
    (weaker : ∀ value after, P value after → Q value after) : Ends program Q state :=
  ⟨ends.arrives.mono weaker⟩

theorem Ends.pure {value : α} (holds : P value state) : Ends (pure value) P state :=
  ⟨arrives_pure.mpr holds⟩

theorem Ends.bind {next : α → LoaderM β} {Q : β → LoadState → Prop} (ends : Ends program P state)
    (goes : ∀ value after, P value after → Ends (next value) Q after) :
    Ends (program >>= next) Q state :=
  ⟨arrives_bind.mpr (ends.arrives.mono fun value after holds => (goes value after holds).arrives)⟩

theorem Ends.loop {ι : Type} {step : ι → LoaderM (ι ⊕ α)} {Q : α → LoadState → Prop}
    {rounds : Nat} {i : ι} (I : ι → LoadState → Prop) (todo : ι → Nat)
    (round : ∀ i before, I i before → Ends (step i)
      (fun next after => match next with
        | .inl j => I j after ∧ todo j < todo i
        | .inr value => Q value after) before)
    (start : I i state) (enough : todo i < rounds) : Ends (loop step rounds i) Q state :=
  ⟨arrives_loop I todo (fun i before holds => (round i before holds).arrives) start enough⟩

theorem ends_onVm (program : VmM α) :
    Ends (onVm program) (fun value after =>
      program.run state.vm = (value, after.vm) ∧ after = { state with vm := after.vm }) state :=
  ⟨rfl, rfl⟩

end

/-- Between two states only accesses in bounds were noted and bytes written. -/
structure Quiet (fileSize : Addr) (before after : LoadState) : Prop where
  safe : Safe fileSize after
  vm : after.vm = before.vm
  frame : after.frame = before.frame

section

variable {fileSize : Addr} {state before middle after : LoadState}

theorem Quiet.refl (safe : Safe fileSize state) : Quiet fileSize state state :=
  ⟨safe, rfl, rfl⟩

theorem Quiet.trans (first : Quiet fileSize before middle) (second : Quiet fileSize middle after) :
    Quiet fileSize before after :=
  ⟨second.safe, second.vm.trans first.vm, second.frame.trans first.frame⟩

/-- A program that only notes accesses in bounds and writes bytes, and its value. -/
def Quietly {α : Type} (fileSize : Addr) (program : LoaderM α) (P : α → Prop)
    (state : LoadState) : Prop :=
  Ends program (fun value after => P value ∧ Quiet fileSize state after) state

theorem Quietly.bind {α β : Type} {program : LoaderM α} {next : α → LoaderM β} {P : α → Prop}
    {Q : β → LoadState → Prop} (quietly : Quietly fileSize program P state)
    (goes : ∀ value after, P value → Quiet fileSize state after → Ends (next value) Q after) :
    Ends (program >>= next) Q state :=
  Ends.bind quietly fun value after ⟨holds, quiet⟩ => goes value after holds quiet

theorem Safe.note (safe : Safe fileSize state) {access : Access}
    (inBounds : access.InBounds fileSize) : Quietly fileSize (note access) (fun _ => True) state := by
  refine ⟨trivial, ?_, rfl, rfl⟩
  intro other member
  rcases List.mem_cons.mp member with rfl | old
  · exact inBounds
  · exact safe other old

theorem Safe.add (safe : Safe fileSize state) {first second : Addr}
    (fits : first.toNat + second.toNat < 2 ^ 64) :
    Quietly fileSize (add first second)
      (fun value => value = first + second ∧ value.toNat = first.toNat + second.toNat) state := by
  have exact' : (first + second).toNat = first.toNat + second.toNat :=
    BitVec.toNat_add_of_lt fits
  have inBounds : (Access.compute (first + second) (first.toNat + second.toNat)).InBounds fileSize := by
    simp only [Access.InBounds, exact']
    omega
  apply (safe.note inBounds).bind
  intro _ noted _ quiet
  exact .pure ⟨⟨rfl, exact'⟩, quiet⟩

theorem Safe.sub (safe : Safe fileSize state) {first second : Addr}
    (fits : second.toNat ≤ first.toNat) :
    Quietly fileSize (sub first second)
      (fun value => value = first - second ∧ value.toNat = first.toNat - second.toNat) state := by
  have exact' : (first - second).toNat = first.toNat - second.toNat :=
    BitVec.toNat_sub_of_le fits
  have inBounds : (Access.compute (first - second) (first.toNat - second.toNat)).InBounds fileSize := by
    simp only [Access.InBounds, exact']
    omega
  apply (safe.note inBounds).bind
  intro _ noted _ quiet
  exact .pure ⟨⟨rfl, exact'⟩, quiet⟩

theorem Safe.readByte (safe : Safe fileSize state) (file : Nat → BitVec 8) {index : Nat}
    (inFile : index < fileSize.toNat) :
    Quietly fileSize (readByte file index) (fun value => value = file index) state := by
  have inBounds : (Access.readFile index).InBounds fileSize := inFile
  apply (safe.note inBounds).bind
  intro _ noted _ quiet
  exact .pure ⟨rfl, quiet⟩

/-- The number a field holds. -/
@[irreducible]
def wordAt (file : Nat → BitVec 8) (off count : Nat) : Nat :=
  (List.range count).foldr (fun i value => (file (off + i)).toNat + 256 * value) 0

theorem wordAt_zero (file : Nat → BitVec 8) (off : Nat) : wordAt file off 0 = 0 := by
  unfold wordAt
  rfl

theorem wordAt_succ (file : Nat → BitVec 8) (off count : Nat) :
    wordAt file off (count + 1) = (file off).toNat + 256 * wordAt file (off + 1) count := by
  simp only [wordAt, List.range_succ_eq_map, List.foldr_cons, List.foldr_map, Nat.succ_eq_add_one,
    Nat.add_zero, Nat.add_assoc, Nat.add_comm 1]

theorem wordAt_lt (file : Nat → BitVec 8) (off count : Nat) : wordAt file off count < 256 ^ count := by
  induction count generalizing off with
  | zero =>
      rw [wordAt_zero]
      exact Nat.one_pos
  | succ count ih =>
      have byte := (file off).isLt
      have rest := ih (off + 1)
      rw [wordAt_succ, Nat.pow_succ]
      omega

theorem Safe.field (safe : Safe fileSize state) (file : Nat → BitVec 8) {off count : Nat}
    (inFile : off + count ≤ fileSize.toNat) :
    Quietly fileSize (field file off count) (fun value => value = wordAt file off count) state := by
  induction count generalizing off state with
  | zero => exact .pure ⟨(wordAt_zero file off).symm, .refl safe⟩
  | succ count ih =>
      unfold Loader.field
      apply (safe.readByte file (by omega)).bind
      rintro _ first rfl quietFirst
      have restInFile : off + 1 + count ≤ fileSize.toNat := by omega
      apply (ih quietFirst.safe restInFile).bind
      rintro _ rest rfl quietRest
      exact .pure ⟨(wordAt_succ file off count).symm, quietFirst.trans quietRest⟩

/-- A byte is written inside the frame handed out last. -/
theorem Safe.writeByte (safe : Safe fileSize state) {addr : Addr} (value : BitVec 8)
    (lower : state.frame.toNat ≤ addr.toNat) (upper : addr.toNat < state.frame.toNat + PAGE_SIZE) :
    Quietly fileSize (writeByte addr value) (fun _ => True) state := by
  have inBounds : (Access.writeFrame state.frame addr).InBounds fileSize := ⟨lower, upper⟩
  have noted : Ends (do
      Loader.note (.writeFrame state.frame addr)
      modify fun state => { state with bytes := assign state.bytes addr value })
      (fun _ after => True ∧ Quiet fileSize state after) state := by
    apply (safe.note inBounds).bind
    intro _ noted _ quiet
    exact ⟨trivial, quiet.safe, quiet.vm, quiet.frame⟩
  exact ⟨noted.arrives⟩

/-- A counting loop whose rounds all are quiet. -/
theorem Safe.forBelow (safe : Safe fileSize state) {rounds : Nat} {bound : Addr}
    {body : Addr → LoaderM Unit} (enough : bound.toNat < rounds)
    (round : ∀ i < bound, ∀ before, Quiet fileSize state before →
      Quietly fileSize (body i) (fun _ => True) before) :
    Quietly fileSize (forBelow rounds bound body) (fun _ => True) state := by
  have runs : Arrives (Store.forBelow rounds bound body) False
      (fun _ after => Quiet fileSize state after) state := by
    apply arrives_forBelow (I := fun _ after => Quiet fileSize state after) ?_ (.refl safe) enough
    intro i below before quiet
    exact (round i below before quiet).arrives.mono fun _ after ⟨_, next⟩ => quiet.trans next
  exact ⟨runs.mono fun _ after quiet => ⟨trivial, quiet⟩⟩

end

/-! ## A segment that passes the checks -/

/-- A segment lies in the file, and its end below the last page. -/
structure SegmentFits (fileSize : Addr) (ph : Phdr) : Prop where
  filesz : ph.pFilesz.toNat ≤ ph.pMemsz.toNat
  source : ph.pOffset.toNat + ph.pFilesz.toNat ≤ fileSize.toNat
  top : ph.pVaddr.toNat + ph.pMemsz.toNat ≤ 0xFFFFFFFFFFFFF000

/-- A page the loop comes to. -/
structure PageOf (ph : Phdr) (page : Addr) : Prop where
  aligned : page.toNat % 4096 = 0
  start : ph.pVaddr.toNat < page.toNat + 4096
  top : page.toNat + 4096 ≤ 0xFFFFFFFFFFFFF000

section

variable {rounds : Nat} {pml4 : Addr} {file : Nat → BitVec 8} {fileSize page phys : Addr}
  {ph : Phdr} {state : LoadState}

/-- The part of a page that comes from the file. -/
theorem copyPage_spec (fits : SegmentFits fileSize ph) (isPage : PageOf ph page)
    (safe : Safe fileSize state) (enough : 2 ^ 64 ≤ rounds) (current : state.frame = phys)
    (frame : phys.toNat + PAGE_SIZE < 2 ^ 64) :
    Quietly fileSize (copyPage rounds file fileSize ph phys page) (fun done => done = true) state := by
  have filesz := fits.filesz
  have source := fits.source
  have top := fits.top
  have start := isPage.start
  have pageTop := isPage.top
  unfold copyPage Quietly
  dsimp only
  generalize startIs : (if page < ph.pVaddr then ph.pVaddr else page) = copyStart
  have startAt : copyStart.toNat = max page.toNat ph.pVaddr.toNat := by
    rw [← startIs]
    split <;> bv_omega
  refine (safe.add (by omega)).bind ?_
  rintro fileEnd _ ⟨-, fileEndAt⟩ quiet₁
  have pageSize : (0x1000 : Addr).toNat = 4096 := rfl
  have limitFits : page.toNat + (0x1000 : Addr).toNat < 2 ^ 64 := by omega
  refine (quiet₁.safe.add limitFits).bind ?_
  rintro pageLimit _ ⟨-, limitAt⟩ quiet₂
  generalize endIs : (if pageLimit > fileEnd then fileEnd else pageLimit) = copyEnd
  have endAt : copyEnd.toNat = min pageLimit.toNat fileEnd.toNat := by
    rw [← endIs]
    split <;> bv_omega
  rw [pageSize] at limitAt
  by_cases empty : copyStart ≥ copyEnd
  · rw [if_pos empty]
    exact .pure ⟨rfl, quiet₁.trans quiet₂⟩
  · rw [if_neg empty]
    have nonempty : copyStart.toNat < copyEnd.toNat := by bv_omega
    refine (quiet₂.safe.sub (by omega)).bind ?_
    rintro len _ ⟨-, lenAt⟩ quiet₃
    refine (quiet₃.safe.sub (by omega)).bind ?_
    rintro inSegment _ ⟨-, inSegmentAt⟩ quiet₄
    refine (quiet₄.safe.add (by omega)).bind ?_
    rintro srcOff _ ⟨-, srcOffAt⟩ quiet₅
    rw [if_neg (by bv_omega)]
    refine (quiet₅.safe.sub (by omega)).bind ?_
    rintro left _ ⟨-, leftAt⟩ quiet₆
    rw [if_neg (by bv_omega)]
    refine (quiet₆.safe.sub (by omega)).bind ?_
    rintro inPage _ ⟨-, inPageAt⟩ quiet₇
    have quiet := (((((quiet₁.trans quiet₂).trans quiet₃).trans quiet₄).trans quiet₅).trans
      quiet₆).trans quiet₇
    simp only [PAGE_SIZE] at frame
    have ends : len.toNat < rounds := by omega
    refine (quiet₇.safe.forBelow ends ?_).bind ?_
    · intro j below before quietBefore
      have index : j.toNat < len.toNat := below
      refine (quietBefore.safe.readByte file (by omega)).bind ?_
      rintro byte read - quietRead
      have now := (quiet.trans quietBefore).trans quietRead
      have base : (phys + inPage).toNat = phys.toNat + inPage.toNat :=
        BitVec.toNat_add_of_lt (by omega)
      have target : (phys + inPage + j).toNat = phys.toNat + inPage.toNat + j.toNat := by
        rw [BitVec.toNat_add_of_lt (by omega), base]
      have lower : read.frame.toNat ≤ (phys + inPage + j).toNat := by
        rw [now.frame, current, target]
        omega
      have upper : (phys + inPage + j).toNat < read.frame.toNat + PAGE_SIZE := by
        rw [now.frame, current, target]
        simp only [PAGE_SIZE]
        omega
      exact Ends.mono (quietRead.safe.writeByte byte lower upper) fun _ after ⟨_, written⟩ => ⟨trivial, quietRead.trans written⟩
    · intro _ after _ copied
      exact .pure ⟨rfl, quiet.trans copied⟩

theorem copyOk_of_fits (fits : SegmentFits fileSize ph) (isPage : PageOf ph page) :
    ph.copyOk fileSize page = true := by
  have filesz := fits.filesz
  have source := fits.source
  have top := fits.top
  have start := isPage.start
  have pageTop := isPage.top
  have pageSize : (0x1000 : Addr).toNat = 4096 := rfl
  have fileEndAt : (ph.pVaddr + ph.pFilesz).toNat = ph.pVaddr.toNat + ph.pFilesz.toNat :=
    BitVec.toNat_add_of_lt (by omega)
  have limitAt : (page + 0x1000).toNat = page.toNat + 4096 := BitVec.toNat_add_of_lt (by omega)
  unfold Phdr.copyOk
  dsimp only
  generalize startIs : (if page < ph.pVaddr then ph.pVaddr else page) = copyStart
  have startAt : copyStart.toNat = max page.toNat ph.pVaddr.toNat := by
    rw [← startIs]
    split <;> bv_omega
  generalize endIs : (if page + 0x1000 > ph.pVaddr + ph.pFilesz then ph.pVaddr + ph.pFilesz
    else page + 0x1000) = copyEnd
  have endAt : copyEnd.toNat = min (page.toNat + 4096) (ph.pVaddr.toNat + ph.pFilesz.toNat) := by
    rw [← endIs]
    split <;> bv_omega
  rw [decide_eq_true_iff]
  by_cases empty : copyStart ≥ copyEnd
  · exact .inl empty
  · have nonempty : copyStart.toNat < copyEnd.toNat := by bv_omega
    have inSegment : (copyStart - ph.pVaddr).toNat = copyStart.toNat - ph.pVaddr.toNat :=
      BitVec.toNat_sub_of_le (show ph.pVaddr.toNat ≤ copyStart.toNat by omega)
    have srcOff : (ph.pOffset + (copyStart - ph.pVaddr)).toNat =
        ph.pOffset.toNat + (copyStart.toNat - ph.pVaddr.toNat) := by
      rw [BitVec.toNat_add_of_lt (by omega), inSegment]
    exact .inr ⟨by bv_omega, by bv_omega⟩

/-- A frame is taken as without notes, and it is the one handed out last. -/
theorem allocPage_spec (safe : Safe fileSize state) :
    Ends allocPage (fun phys after => Safe fileSize after ∧ after.frame = phys ∧
      pmmAllocPage.run state.vm = (phys, after.vm) ∧ phys.toNat + PAGE_SIZE < 2 ^ 64) state := by
  refine ⟨safe, rfl, rfl, ?_⟩
  have takes := pmmAllocPage_spec state.vm
  rcases takes with ⟨-, none, -⟩ | ⟨i, found, taken, -⟩
  · exact (congrArg (fun addr : Addr => addr.toNat + PAGE_SIZE) none).trans_lt (by decide)
  · have bound := (nextFrame_bound found).1
    have value := (congrArg BitVec.toNat taken).trans (frameAddr_toNat bound)
    simp only [MAX_PAGES, PAGE_SIZE] at *
    change (pmmAllocPage.run state.vm).1.toNat + 4096 < _
    omega

/-- One round of the page loop does to the page tables what it does without
notes. -/
theorem loadPage_spec (fits : SegmentFits fileSize ph) (isPage : PageOf ph page)
    (safe : Safe fileSize state) (enough : 2 ^ 64 ≤ rounds) (count : Nat) :
    Ends (loadPage rounds pml4 file fileSize ph page)
      (fun done after => Safe fileSize after ∧
        (Vmm.loadPages pml4 fileSize ph (count + 1) page).run state.vm =
          if done = true then (Vmm.loadPages pml4 fileSize ph count (page + 0x1000)).run after.vm
          else (false, after.vm)) state := by
  unfold loadPage
  apply (allocPage_spec safe).bind
  rintro phys taken ⟨safeTaken, current, run, bound⟩
  have unfolds : (Vmm.loadPages pml4 fileSize ph (count + 1) page).run state.vm =
      (if phys = 0 then (pure false : VmM Bool) else do
        vmmMapPage pml4 page phys ph.pageFlags
        if ph.copyOk fileSize page then Vmm.loadPages pml4 fileSize ph count (page + 0x1000)
        else return false).run taken.vm := by
    rw [Vmm.loadPages, StateT.run_bind, run]
    rfl
  by_cases none : phys = 0
  · rw [if_pos none] at unfolds ⊢
    exact .pure ⟨safeTaken, unfolds⟩
  · rw [if_neg none] at unfolds ⊢
    have zeroed : Quietly fileSize (forBelow rounds 0x1000 fun i => writeByte (phys + i) 0)
        (fun _ => True) taken := by
      apply safeTaken.forBelow
      · change 4096 < rounds
        omega
      · intro i below before quiet
        have index : i.toNat < 4096 := below
        have target : (phys + i).toNat = phys.toNat + i.toNat :=
          BitVec.toNat_add_of_lt (by simp only [PAGE_SIZE] at bound; omega)
        have lower : before.frame.toNat ≤ (phys + i).toNat := by
          rw [quiet.frame, current, target]
          omega
        have upper : (phys + i).toNat < before.frame.toNat + PAGE_SIZE := by
          rw [quiet.frame, current, target]
          simp only [PAGE_SIZE]
          omega
        exact quiet.safe.writeByte 0 lower upper
    refine zeroed.bind fun _ cleared _ quiet => ?_
    apply (ends_onVm (vmmMapPage pml4 page phys ph.pageFlags)).bind
    rintro _ mapped ⟨maps, onlyVm⟩
    have safeMapped : Safe fileSize mapped := by
      rw [onlyVm]
      exact quiet.safe
    have currentMapped : mapped.frame = phys := by
      rw [onlyVm]
      exact quiet.frame.trans current
    apply Ends.mono (copyPage_spec fits isPage safeMapped enough currentMapped bound)
    rintro done after ⟨rfl, copied⟩
    refine ⟨copied.safe, ?_⟩
    rw [quiet.vm] at maps
    rw [unfolds, if_pos rfl, StateT.run_bind, maps, copied.vm,
      if_pos (copyOk_of_fits fits isPage)]
    rfl

/-- The page loop ends after the last page, and does to the page tables what it
does without notes. -/
theorem loadPages_spec (fits : SegmentFits fileSize ph) {pageEnd : Addr}
    (endAligned : pageEnd.toNat % 4096 = 0) (endTop : pageEnd.toNat ≤ 0xFFFFFFFFFFFFF000)
    (aligned : page.toNat % 4096 = 0) (start : ph.pVaddr.toNat < page.toNat + 4096)
    (within : page.toNat ≤ pageEnd.toNat) (safe : Safe fileSize state) (enough : 2 ^ 64 ≤ rounds) :
    Ends (loadPages rounds pml4 file fileSize ph pageEnd page)
      (fun done after => Safe fileSize after ∧
        (Vmm.loadPages pml4 fileSize ph ((pageEnd - page) >>> 12).toNat page).run state.vm =
          (done, after.vm)) state := by
  rw [pages_toNat within]
  generalize whole : (Vmm.loadPages pml4 fileSize ph ((pageEnd.toNat - page.toNat) / 4096)
    page).run state.vm = result
  apply Ends.loop (fun page before => Safe fileSize before ∧ page.toNat % 4096 = 0 ∧
      ph.pVaddr.toNat < page.toNat + 4096 ∧ page.toNat ≤ pageEnd.toNat ∧
      (Vmm.loadPages pml4 fileSize ph ((pageEnd.toNat - page.toNat) / 4096) page).run before.vm =
        result)
    (fun page => pageEnd.toNat - page.toNat)
  · rintro page before ⟨safe, aligned, start, within, goes⟩
    by_cases more : page < pageEnd
    · rw [if_pos more]
      have below : page.toNat < pageEnd.toNat := more
      have isPage : PageOf ph page := ⟨aligned, start, le_trans (by omega) endTop⟩
      have counts : (pageEnd.toNat - page.toNat) / 4096 =
          (pageEnd.toNat - (page.toNat + 4096)) / 4096 + 1 := by omega
      rw [counts] at goes
      apply (loadPage_spec fits isPage safe enough _).bind
      rintro done after ⟨safeAfter, step⟩
      rw [goes] at step
      cases done with
      | false => exact .pure ⟨safeAfter, step⟩
      | true =>
          rw [if_pos rfl] at step
          have pageSize : (0x1000 : Addr).toNat = 4096 := rfl
          have limitFits : page.toNat + (0x1000 : Addr).toNat < 2 ^ 64 := by omega
          apply (safeAfter.add limitFits).bind
          rintro _ last ⟨rfl, nextAt⟩ quiet
          rw [pageSize] at nextAt
          refine .pure ⟨⟨quiet.safe, by omega, by omega, by omega, ?_⟩, by omega⟩
          rw [nextAt, quiet.vm, step]
    · rw [if_neg more]
      have passed : pageEnd.toNat ≤ page.toNat := Nat.le_of_not_lt more
      have none : (pageEnd.toNat - page.toNat) / 4096 = 0 := by omega
      rw [none] at goes
      exact .pure ⟨safe, goes.symm⟩
  · exact ⟨safe, aligned, start, within, whole⟩
  · have bound := pageEnd.isLt
    omega

/-- A segment is checked, and loaded if it passes. -/
theorem loadSegment_spec (safe : Safe fileSize state) (enough : 2 ^ 64 ≤ rounds) :
    Ends (loadSegment rounds pml4 file fileSize ph)
      (fun done after => Safe fileSize after ∧
        (Vmm.loadSegment pml4 fileSize ph).run state.vm = (done, after.vm)) state := by
  -- A segment that is given up leaves the page tables as they are.
  have refused : ∀ after, Quiet fileSize state after → ph.sizesOk fileSize = false →
      Safe fileSize after ∧
        (Vmm.loadSegment pml4 fileSize ph).run state.vm = (false, after.vm) := by
    intro after quiet fails
    rw [Vmm.loadSegment, if_neg (by rw [fails]; exact Bool.false_ne_true), quiet.vm]
    exact ⟨quiet.safe, rfl⟩
  have start : Quiet fileSize state state := .refl safe
  unfold loadSegment
  by_cases tooLong : ph.pFilesz > ph.pMemsz
  · rw [if_pos tooLong]
    exact .pure (refused _ start (by simp [Phdr.sizesOk, tooLong]))
  rw [if_neg tooLong]
  by_cases outside : ph.pOffset > fileSize
  · rw [if_pos outside]
    exact .pure (refused _ start (by simp [Phdr.sizesOk, outside]))
  rw [if_neg outside]
  have inFile : ph.pOffset.toNat ≤ fileSize.toNat := Nat.le_of_not_lt outside
  apply (safe.sub inFile).bind
  rintro _ after₁ ⟨rfl, leftAt⟩ quiet₁
  by_cases cut : ph.pFilesz > fileSize - ph.pOffset
  · rw [if_pos cut]
    exact .pure (refused _ quiet₁ (by simp [Phdr.sizesOk, cut]))
  rw [if_neg cut]
  by_cases wraps : ph.segEnd < ph.pVaddr
  · rw [if_pos wraps]
    exact .pure (refused _ quiet₁ (by simp [Phdr.sizesOk, wraps]))
  rw [if_neg wraps]
  have sizes : ph.sizesOk fileSize = true := by
    simp only [Phdr.sizesOk, decide_eq_true_iff]
    exact ⟨BitVec.not_lt.mp tooLong, BitVec.not_lt.mp outside, BitVec.not_lt.mp cut,
      BitVec.not_lt.mp wraps⟩
  have abstract : (Vmm.loadSegment pml4 fileSize ph).run state.vm =
      (if ph.pMemsz = 0 then (return true : VmM Bool)
        else if ph.rangeOk then
          Vmm.loadPages pml4 fileSize ph ((ph.pageEnd - ph.pageStart) >>> 12).toNat ph.pageStart
        else return false).run state.vm := by
    rw [Vmm.loadSegment, if_pos sizes]
  rw [abstract]
  by_cases empty : ph.pMemsz = 0
  · rw [if_pos empty, if_pos empty]
    refine .pure ⟨quiet₁.safe, ?_⟩
    rw [quiet₁.vm]
    rfl
  rw [if_neg empty, if_neg empty]
  have segEndAt : ph.segEnd.toNat = ph.pVaddr.toNat + ph.pMemsz.toNat := by
    have vaddr := ph.pVaddr.isLt
    have memsz := ph.pMemsz.isLt
    have noWrap : ph.pVaddr.toNat ≤ ph.segEnd.toNat := Nat.le_of_not_lt wraps
    rw [Phdr.segEnd, BitVec.toNat_add] at noWrap ⊢
    omega
  have segEndFits := ph.segEnd.isLt
  rw [segEndAt] at segEndFits
  apply (quiet₁.safe.add segEndFits).bind
  rintro _ after₂ ⟨rfl, -⟩ quiet₂
  have quiet := quiet₁.trans quiet₂
  change Ends (if ph.segEnd > 0xFFFFFFFFFFFFF000 then _ else _) _ _
  by_cases tooHigh : ph.segEnd > 0xFFFFFFFFFFFFF000
  · have fails : ph.rangeOk = false := by
      simp only [Phdr.rangeOk, decide_eq_false_iff_not]
      exact fun ok => absurd tooHigh (BitVec.not_lt.mpr ok.1)
    rw [if_pos tooHigh, if_neg (by rw [fails]; exact Bool.false_ne_true)]
    refine .pure ⟨quiet.safe, ?_⟩
    rw [quiet.vm]
    rfl
  rw [if_neg tooHigh]
  have top : ph.segEnd.toNat ≤ 0xFFFFFFFFFFFFF000 := Nat.le_of_not_lt tooHigh
  have low : (0xFFF : Addr).toNat = 4095 := rfl
  have roundFits : ph.segEnd.toNat + (0xFFF : Addr).toNat < 2 ^ 64 := by omega
  apply (quiet₂.safe.add roundFits).bind
  rintro _ after₃ ⟨rfl, roundAt⟩ quiet₃
  have quietAll := quiet.trans quiet₃
  have pageEndAt : ph.pageEnd.toNat = (ph.segEnd.toNat + 4095) / 4096 * 4096 := by
    rw [Phdr.pageEnd, pageMask_toNat, roundAt, low]
  have pageStartAt : ph.pageStart.toNat = ph.pVaddr.toNat / 4096 * 4096 := pageMask_toNat _
  have reaches : ¬ ph.pageEnd < ph.segEnd := by
    apply Nat.not_lt_of_le
    rw [pageEndAt]
    omega
  change Ends (if ph.pageEnd < ph.segEnd then _ else _) _ _
  have range : ph.rangeOk = true := by
    simp only [Phdr.rangeOk, decide_eq_true_iff]
    exact ⟨BitVec.not_lt.mp tooHigh, BitVec.not_lt.mp reaches⟩
  rw [if_neg reaches, if_pos range, ← quietAll.vm]
  have memsz : ph.pMemsz.toNat ≠ 0 := fun zero => empty (BitVec.eq_of_toNat_eq zero)
  have fits : SegmentFits fileSize ph := by
    have filesz : ph.pFilesz.toNat ≤ ph.pMemsz.toNat := Nat.le_of_not_lt tooLong
    have source : ph.pFilesz.toNat ≤ (fileSize - ph.pOffset).toNat := Nat.le_of_not_lt cut
    exact ⟨filesz, by omega, by omega⟩
  have endAligned : ph.pageEnd.toNat % 4096 = 0 := by omega
  have endTop : ph.pageEnd.toNat ≤ 0xFFFFFFFFFFFFF000 := by omega
  have startAligned : ph.pageStart.toNat % 4096 = 0 := by omega
  have startBelow : ph.pVaddr.toNat < ph.pageStart.toNat + 4096 := by omega
  have within : ph.pageStart.toNat ≤ ph.pageEnd.toNat := by omega
  exact loadPages_spec fits endAligned endTop startAligned startBelow within quiet₃.safe enough

end

/-! ## The headers -/

/-- What the header has to say for the loader to go on. -/
structure HeaderOk (file : Nat → BitVec 8) (size : Nat) : Prop where
  ehdr : EHDR_SIZE ≤ size
  mag0 : file 0 = 0x7F
  mag1 : file 1 = 0x45
  mag2 : file 2 = 0x4C
  mag3 : file 3 = 0x46
  elf64 : file 4 = 2
  littleEndian : file 5 = 1
  machine : wordAt file 18 2 = 62
  type : wordAt file 16 2 = 2 ∨ wordAt file 16 2 = 3
  phnum : wordAt file 56 2 ≠ 0
  phentsize : wordAt file 54 2 = PHDR_SIZE
  phoff : wordAt file 32 8 ≤ size
  table : wordAt file 56 2 * PHDR_SIZE ≤ size - wordAt file 32 8

/-- The program header at an offset. -/
def phdrAt (file : Nat → BitVec 8) (off : Nat) : Phdr :=
  { pType := wordAt file off 4
    pFlags := wordAt file (off + 4) 4
    pOffset := BitVec.ofNat 64 (wordAt file (off + 8) 8)
    pVaddr := BitVec.ofNat 64 (wordAt file (off + 16) 8)
    pFilesz := BitVec.ofNat 64 (wordAt file (off + 32) 8)
    pMemsz := BitVec.ofNat 64 (wordAt file (off + 40) 8) }

section

variable {rounds : Nat} {pml4 : Addr} {file : Nat → BitVec 8} {fileSize : Addr}
  {state : LoadState}

/-- The program headers lie in the file. -/
theorem HeaderOk.inFile (ok : HeaderOk file fileSize.toNat) :
    (BitVec.ofNat 64 (wordAt file 32 8)).toNat + (BitVec.ofNat 16 (wordAt file 56 2)).toNat *
      PHDR_SIZE ≤ fileSize.toNat := by
  have phoff := ok.phoff
  have table := ok.table
  have phoffLt : wordAt file 32 8 < 2 ^ 64 := wordAt_lt file 32 8
  have phnumLt : wordAt file 56 2 < 2 ^ 16 := wordAt_lt file 56 2
  rw [BitVec.toNat_ofNat, BitVec.toNat_ofNat, Nat.mod_eq_of_lt phoffLt, Nat.mod_eq_of_lt phnumLt]
  omega

/-- The header checks decide whether the header is all right, within the file. -/
theorem checkHeader_spec (safe : Safe fileSize state) :
    Quietly fileSize (checkHeader file fileSize)
      (fun value => (value = none ∧ ¬ HeaderOk file fileSize.toNat) ∨
        (HeaderOk file fileSize.toNat ∧
          value = some (BitVec.ofNat 64 (wordAt file 32 8), BitVec.ofNat 16 (wordAt file 56 2))))
      state := by
  have start : Quiet fileSize state state := .refl safe
  unfold checkHeader
  by_cases small : fileSize < 64
  · rw [if_pos small]
    exact .pure ⟨.inl ⟨rfl, fun ok => absurd ok.ehdr (Nat.not_le_of_lt small)⟩, start⟩
  rw [if_neg small]
  have size : 64 ≤ fileSize.toNat := Nat.le_of_not_lt small
  apply (safe.readByte file (by omega)).bind
  rintro _ s₀ rfl q₀
  by_cases mag0 : file 0 ≠ 0x7F
  · rw [if_pos mag0]
    exact .pure ⟨.inl ⟨rfl, fun ok => mag0 ok.mag0⟩, q₀⟩
  rw [if_neg mag0]
  apply (q₀.safe.readByte file (by omega)).bind
  rintro _ s₁ rfl q₁
  replace q₁ := q₀.trans q₁
  by_cases mag1 : file 1 ≠ 0x45
  · rw [if_pos mag1]
    exact .pure ⟨.inl ⟨rfl, fun ok => mag1 ok.mag1⟩, q₁⟩
  rw [if_neg mag1]
  apply (q₁.safe.readByte file (by omega)).bind
  rintro _ s₂ rfl q₂
  replace q₂ := q₁.trans q₂
  by_cases mag2 : file 2 ≠ 0x4C
  · rw [if_pos mag2]
    exact .pure ⟨.inl ⟨rfl, fun ok => mag2 ok.mag2⟩, q₂⟩
  rw [if_neg mag2]
  apply (q₂.safe.readByte file (by omega)).bind
  rintro _ s₃ rfl q₃
  replace q₃ := q₂.trans q₃
  by_cases mag3 : file 3 ≠ 0x46
  · rw [if_pos mag3]
    exact .pure ⟨.inl ⟨rfl, fun ok => mag3 ok.mag3⟩, q₃⟩
  rw [if_neg mag3]
  apply (q₃.safe.readByte file (by omega)).bind
  rintro _ s₄ rfl q₄
  replace q₄ := q₃.trans q₄
  by_cases elf64 : file 4 ≠ 2
  · rw [if_pos elf64]
    exact .pure ⟨.inl ⟨rfl, fun ok => elf64 ok.elf64⟩, q₄⟩
  rw [if_neg elf64]
  apply (q₄.safe.readByte file (by omega)).bind
  rintro _ s₅ rfl q₅
  replace q₅ := q₄.trans q₅
  by_cases little : file 5 ≠ 1
  · rw [if_pos little]
    exact .pure ⟨.inl ⟨rfl, fun ok => little ok.littleEndian⟩, q₅⟩
  rw [if_neg little]
  apply (q₅.safe.field file (by omega)).bind
  rintro _ s₆ rfl q₆
  replace q₆ := q₅.trans q₆
  by_cases machine : wordAt file 18 2 ≠ 62
  · rw [if_pos machine]
    exact .pure ⟨.inl ⟨rfl, fun ok => machine ok.machine⟩, q₆⟩
  rw [if_neg machine]
  apply (q₆.safe.field file (by omega)).bind
  rintro _ s₇ rfl q₇
  replace q₇ := q₆.trans q₇
  by_cases type : wordAt file 16 2 ≠ 2 ∧ wordAt file 16 2 ≠ 3
  · rw [if_pos type]
    exact .pure ⟨.inl ⟨rfl, fun ok => ok.type.elim type.1 type.2⟩, q₇⟩
  rw [if_neg type]
  apply (q₇.safe.field file (by omega)).bind
  rintro _ s₈ rfl q₈
  replace q₈ := q₇.trans q₈
  by_cases phnum : wordAt file 56 2 = 0
  · rw [if_pos phnum]
    exact .pure ⟨.inl ⟨rfl, fun ok => ok.phnum phnum⟩, q₈⟩
  rw [if_neg phnum]
  apply (q₈.safe.field file (by omega)).bind
  rintro _ s₉ rfl q₉
  replace q₉ := q₈.trans q₉
  by_cases phentsize : wordAt file 54 2 ≠ PHDR_SIZE
  · rw [if_pos phentsize]
    exact .pure ⟨.inl ⟨rfl, fun ok => phentsize ok.phentsize⟩, q₉⟩
  rw [if_neg phentsize, not_not.mp phentsize]
  apply (q₉.safe.field file (by omega)).bind
  rintro _ s₁₀ rfl q₁₀
  replace q₁₀ := q₉.trans q₁₀
  have phoffAt : (BitVec.ofNat 64 (wordAt file 32 8)).toNat = wordAt file 32 8 :=
    (BitVec.toNat_ofNat _ _).trans (Nat.mod_eq_of_lt (wordAt_lt file 32 8))
  have phnumLt : wordAt file 56 2 < 65536 := wordAt_lt file 56 2
  have sizeAt : (BitVec.ofNat 64 (wordAt file 56 2) * BitVec.ofNat 64 PHDR_SIZE).toNat =
      wordAt file 56 2 * PHDR_SIZE := by
    rw [BitVec.toNat_mul, BitVec.toNat_ofNat, BitVec.toNat_ofNat]
    simp only [PHDR_SIZE]
    omega
  by_cases outside : BitVec.ofNat 64 (wordAt file 32 8) > fileSize
  · rw [if_pos outside]
    have below : fileSize.toNat < (BitVec.ofNat 64 (wordAt file 32 8)).toNat := outside
    rw [phoffAt] at below
    exact .pure ⟨.inl ⟨rfl, fun ok => absurd ok.phoff (Nat.not_le_of_lt below)⟩, q₁₀⟩
  rw [if_neg outside]
  have phoff : (BitVec.ofNat 64 (wordAt file 32 8)).toNat ≤ fileSize.toNat :=
    Nat.le_of_not_lt outside
  apply (q₁₀.safe.sub phoff).bind
  rintro _ s₁₁ ⟨rfl, leftAt⟩ q₁₁
  replace q₁₁ := q₁₀.trans q₁₁
  rw [phoffAt] at phoff leftAt
  by_cases table : BitVec.ofNat 64 (wordAt file 56 2) * BitVec.ofNat 64 PHDR_SIZE >
      fileSize - BitVec.ofNat 64 (wordAt file 32 8)
  · rw [if_pos table]
    have longer : (fileSize - BitVec.ofNat 64 (wordAt file 32 8)).toNat <
        (BitVec.ofNat 64 (wordAt file 56 2) * BitVec.ofNat 64 PHDR_SIZE).toNat := table
    rw [leftAt, sizeAt] at longer
    exact .pure ⟨.inl ⟨rfl, fun ok => absurd ok.table (Nat.not_le_of_lt longer)⟩, q₁₁⟩
  rw [if_neg table]
  have inFile : (BitVec.ofNat 64 (wordAt file 56 2) * BitVec.ofNat 64 PHDR_SIZE).toNat ≤
      (fileSize - BitVec.ofNat 64 (wordAt file 32 8)).toNat := Nat.le_of_not_lt table
  rw [leftAt, sizeAt] at inFile
  refine .pure ⟨.inr ⟨?_, rfl⟩, q₁₁⟩
  exact
    { ehdr := size, mag0 := not_not.mp mag0, mag1 := not_not.mp mag1, mag2 := not_not.mp mag2
      mag3 := not_not.mp mag3, elf64 := not_not.mp elf64, littleEndian := not_not.mp little
      machine := not_not.mp machine
      type := by_contra fun neither => type (not_or.mp neither)
      phnum, phentsize := not_not.mp phentsize, phoff, table := inFile }

/-- A program header is read within the file. -/
theorem readPhdr_spec (safe : Safe fileSize state) {off : Nat}
    (inFile : off + PHDR_SIZE ≤ fileSize.toNat) :
    Quietly fileSize (readPhdr file off (wordAt file off 4)) (fun ph => ph = phdrAt file off)
      state := by
  simp only [PHDR_SIZE] at inFile
  unfold readPhdr
  apply (safe.field file (by omega)).bind
  rintro _ s₁ rfl q₁
  apply (q₁.safe.field file (by omega)).bind
  rintro _ s₂ rfl q₂
  apply (q₂.safe.field file (by omega)).bind
  rintro _ s₃ rfl q₃
  apply (q₃.safe.field file (by omega)).bind
  rintro _ s₄ rfl q₄
  apply (q₄.safe.field file (by omega)).bind
  rintro _ s₅ rfl q₅
  exact .pure ⟨rfl, (((q₁.trans q₂).trans q₃).trans q₄).trans q₅⟩

/-- The loop over the program headers does to the page tables what it does without
notes, and counts the `PT_LOAD` segments. -/
theorem loadSegments_spec (safe : Safe fileSize state) (enough : 2 ^ 64 ≤ rounds) {ePhoff : Addr}
    {ePhnum : BitVec 16} (inFile : ePhoff.toNat + ePhnum.toNat * PHDR_SIZE ≤ fileSize.toNat) :
    let headers := (List.range ePhnum.toNat).map fun i => phdrAt file (ePhoff.toNat + i * PHDR_SIZE)
    Ends (loadSegments rounds pml4 file fileSize ePhoff ePhnum)
      (fun value after => Safe fileSize after ∧
        (Vmm.loadSegments pml4 fileSize headers).run state.vm = (value.isSome, after.vm) ∧
        ∀ segments, value = some segments →
          headers.any (fun ph => ph.pType = 1) = decide (segments ≠ 0)) state := by
  intro headers
  simp only [PHDR_SIZE] at inFile
  have allHeaders : headers = (List.range' 0 (ePhnum.toNat - 0)).map
      fun i => phdrAt file (ePhoff.toNat + i * PHDR_SIZE) := by
    rw [Nat.sub_zero, ← List.range_eq_range']
  generalize whole : (Vmm.loadSegments pml4 fileSize headers).run state.vm = result
  generalize found : (headers.any fun ph => ph.pType = 1) = present
  -- The headers from `i` on are still to come.
  apply Ends.loop (fun (place : BitVec 16 × Nat) before => Safe fileSize before ∧
      place.1.toNat ≤ ePhnum.toNat ∧
      (Vmm.loadSegments pml4 fileSize ((List.range' place.1.toNat (ePhnum.toNat - place.1.toNat)).map
        fun i => phdrAt file (ePhoff.toNat + i * PHDR_SIZE))).run before.vm = result ∧
      (decide (place.2 ≠ 0) || ((List.range' place.1.toNat (ePhnum.toNat - place.1.toNat)).map
        fun i => phdrAt file (ePhoff.toNat + i * PHDR_SIZE)).any fun ph => ph.pType = 1) = present)
    (fun place => ePhnum.toNat - place.1.toNat)
  · rintro ⟨i, segments⟩ before ⟨safe, within, goes, counts⟩
    dsimp only at within goes counts ⊢
    by_cases more : i < ePhnum
    · rw [if_pos more]
      have below : i.toNat < ePhnum.toNat := more
      have nextAt : (i + 1).toNat = i.toNat + 1 := by bv_omega
      have nextWithin : (i + 1).toNat ≤ ePhnum.toNat := by omega
      have less : ePhnum.toNat - (i + 1).toNat < ePhnum.toNat - i.toNat := by omega
      have rest : ePhnum.toNat - i.toNat = (ePhnum.toNat - (i + 1).toNat) + 1 := by omega
      rw [rest, List.range'_succ, List.map_cons, Vmm.loadSegments, ← nextAt] at goes
      rw [rest, List.range'_succ, List.map_cons, List.any_cons, ← nextAt] at counts
      have headerInFile : ePhoff.toNat + i.toNat * PHDR_SIZE + 56 ≤ fileSize.toNat := by
        simp only [PHDR_SIZE]
        omega
      apply (safe.field file (by omega)).bind
      rintro _ read rfl quiet
      rw [← quiet.vm] at goes
      by_cases other : wordAt file (ePhoff.toNat + i.toNat * PHDR_SIZE) 4 ≠ 1
      · rw [if_pos other]
        have notLoad : (phdrAt file (ePhoff.toNat + i.toNat * PHDR_SIZE)).pType ≠ 1 := other
        rw [if_neg notLoad] at goes
        rw [decide_eq_false notLoad, Bool.false_or] at counts
        exact .pure ⟨⟨quiet.safe, nextWithin, goes, counts⟩, less⟩
      · rw [if_neg other]
        have load : (phdrAt file (ePhoff.toNat + i.toNat * PHDR_SIZE)).pType = 1 := not_not.mp other
        rw [if_pos load] at goes
        rw [decide_eq_true load, Bool.true_or, Bool.or_true] at counts
        apply (readPhdr_spec quiet.safe headerInFile).bind
        rintro _ header rfl quietHeader
        rw [← quietHeader.vm, StateT.run_bind] at goes
        apply (loadSegment_spec quietHeader.safe enough).bind
        rintro done after ⟨safeAfter, step⟩
        rw [step] at goes
        cases done with
        | false => exact .pure ⟨safeAfter, goes.symm, fun segments wrong => by cases wrong⟩
        | true =>
            refine .pure ⟨⟨safeAfter, nextWithin, goes, ?_⟩, less⟩
            rw [← counts, decide_eq_true (Nat.succ_ne_zero segments), Bool.true_or]
    · rw [if_neg more]
      have passed : ePhnum.toNat ≤ i.toNat := Nat.le_of_not_lt more
      rw [Nat.sub_eq_zero_of_le passed] at goes counts
      refine .pure ⟨safe, goes.symm, ?_⟩
      rintro _ ⟨⟩
      rw [← counts]
      exact Bool.or_false _
  · refine ⟨safe, Nat.zero_le _, ?_, ?_⟩
    · rw [← whole, allHeaders]
      rfl
    · rw [← found, allHeaders]
      exact Bool.false_or _
  · have bound := ePhnum.isLt
    dsimp only
    omega

end

/-! ## The whole loader -/

section

variable {rounds : Nat} {proc : Option Addr} {file : Option (Nat → BitVec 8)} {fileSize : Addr}
  {state : LoadState}

/-- The loader stays in bounds, and is not refused by its last two checks. -/
theorem loadElfIntoProcess_safe (safe : Safe fileSize state) (enough : 2 ^ 64 ≤ rounds) :
    Ends (loadElfIntoProcess rounds fileSize proc file) (fun _ after => Safe fileSize after)
      state := by
  unfold loadElfIntoProcess
  cases proc with
  | none => exact .pure safe
  | some pml4 =>
      cases file with
      | none => exact .pure safe
      | some file =>
          dsimp only
          by_cases null : pml4 = 0
          · rw [if_pos null]
            exact .pure safe
          · rw [if_neg null]
            apply (checkHeader_spec safe).bind
            rintro _ checked (⟨rfl, -⟩ | ⟨ok, rfl⟩) quiet
            · exact .pure quiet.safe
            · dsimp only
              apply (loadSegments_spec quiet.safe enough ok.inFile).bind
              rintro value after ⟨safeAfter, -⟩
              cases value with
              | none => exact .pure safeAfter
              | some segments =>
                  dsimp only
                  split <;> exact .pure safeAfter

end

section

variable {file : ElfFile}

theorem word_eq_wordAt (off count : Nat) : file.word off count = wordAt file.bytes off count := by
  unfold wordAt
  rfl

theorem phdr_eq_phdrAt (i : Nat) :
    file.phdr i = phdrAt file.bytes (file.ePhoff + i * PHDR_SIZE) := by
  simp only [ElfFile.phdr, phdrAt, word_eq_wordAt]

theorem headerOk_iff : file.headerOk = true ↔ HeaderOk file.bytes file.size := by
  simp only [ElfFile.headerOk, decide_eq_true_iff, ElfFile.eMachine, ElfFile.eType, ElfFile.ePhnum,
    ElfFile.ePhentsize, ElfFile.ePhoff, word_eq_wordAt]
  constructor
  · rintro ⟨ehdr, mag0, mag1, mag2, mag3, elf64, littleEndian, machine, type, phnum, phentsize,
      phoff, table⟩
    exact ⟨ehdr, mag0, mag1, mag2, mag3, elf64, littleEndian, machine, type, phnum, phentsize,
      phoff, phentsize ▸ table⟩
  · intro ok
    exact ⟨ok.ehdr, ok.mag0, ok.mag1, ok.mag2, ok.mag3, ok.elf64, ok.littleEndian, ok.machine,
      ok.type, ok.phnum, ok.phentsize, ok.phoff, ok.phentsize ▸ ok.table⟩

/-- The loader without notes returns what this one returns, and leaves the same page
tables. -/
theorem loadElfIntoProcess_refines {rounds : Nat} {pml4 : Addr} {state : LoadState}
    (safe : Safe (BitVec.ofNat 64 file.size) state) (enough : 2 ^ 64 ≤ rounds) :
    Ends (loadElfIntoProcess rounds (BitVec.ofNat 64 file.size) (some pml4) (some file.bytes))
      (fun result after =>
        (Vmm.loadElfIntoProcess pml4 file).run state.vm = (decide (result = 0), after.vm))
      state := by
  have sizeLt := file.size_lt
  have sizeAt : (BitVec.ofNat 64 file.size).toNat = file.size :=
    (BitVec.toNat_ofNat _ _).trans (Nat.mod_eq_of_lt (by omega))
  unfold loadElfIntoProcess Vmm.loadElfIntoProcess
  dsimp only
  by_cases null : pml4 = 0
  · rw [if_pos null, if_pos null]
    exact .pure rfl
  rw [if_neg null, if_neg null]
  apply (checkHeader_spec safe).bind
  rintro _ checked (⟨rfl, bad⟩ | ⟨ok, rfl⟩) quiet
  · rw [sizeAt, ← headerOk_iff] at bad
    rw [if_neg bad, ← quiet.vm]
    exact .pure rfl
  · dsimp only
    have inFile := ok.inFile
    rw [sizeAt] at ok
    rw [if_pos (headerOk_iff.mpr ok), ← quiet.vm]
    have phoffLt : wordAt file.bytes 32 8 < 2 ^ 64 := wordAt_lt file.bytes 32 8
    have phnumLt : wordAt file.bytes 56 2 < 2 ^ 16 := wordAt_lt file.bytes 56 2
    have headers : (List.range file.ePhnum).map file.phdr =
        (List.range (BitVec.ofNat 16 (wordAt file.bytes 56 2)).toNat).map fun i =>
          phdrAt file.bytes ((BitVec.ofNat 64 (wordAt file.bytes 32 8)).toNat + i * PHDR_SIZE) := by
      rw [BitVec.toNat_ofNat, BitVec.toNat_ofNat, Nat.mod_eq_of_lt phoffLt,
        Nat.mod_eq_of_lt phnumLt, ElfFile.ePhnum, word_eq_wordAt]
      apply List.map_congr_left
      intro i _
      rw [phdr_eq_phdrAt, ElfFile.ePhoff, word_eq_wordAt]
    apply (loadSegments_spec quiet.safe enough inFile).bind
    rintro value after ⟨-, run, counts⟩
    rw [← headers] at run counts
    rw [StateT.run_bind, run]
    cases value with
    | none => exact .pure rfl
    | some segments =>
        dsimp only
        by_cases none : segments = 0
        · rw [if_pos none]
          apply Ends.pure
          change ((_, after.vm) : Bool × Vm) = _
          rw [counts segments rfl, none]
          rfl
        · rw [if_neg none]
          apply Ends.pure
          change ((_, after.vm) : Bool × Vm) = _
          rw [counts segments rfl, decide_eq_true none]
          rfl

end

/-- Whatever is in the file and in the frame pool, the loader ends; it reads the file
below its size and writes inside the frame just handed out, no sum or difference it
goes on with wraps, and the checks "src_off outside" and "copy outside" never
fire. -/
theorem loadElfIntoProcess_inBounds (proc : Option Addr) (file : Option (Nat → BitVec 8))
    (fileSize : Addr) (vm : Vm) (bytes : Addr → BitVec 8) (frame : Addr) (rounds : Nat)
    (enough : 2 ^ 64 ≤ rounds) :
    ∃ result after,
      (loadElfIntoProcess rounds fileSize proc file).run ⟨vm, bytes, frame, []⟩ =
        some (result, after) ∧
      ∀ access ∈ after.trace, access.InBounds fileSize := by
  have safe : Safe fileSize ⟨vm, bytes, frame, []⟩ := fun access member => by cases member
  exact (loadElfIntoProcess_safe safe enough).arrives.exists_some id

theorem loadElfIntoProcess_inBounds_text :
    ∃ result after,
      (loadElfIntoProcess (2 ^ 64) (BitVec.ofNat 64 textFile.size) (some firstRoot.1)
        (some textFile.bytes)).run ⟨firstRoot.2, fun _ => 0, 0, []⟩ = some (result, after) ∧
      ∀ access ∈ after.trace, access.InBounds (BitVec.ofNat 64 textFile.size) :=
  loadElfIntoProcess_inBounds (some firstRoot.1) (some textFile.bytes) _ firstRoot.2 (fun _ => 0) 0
    (2 ^ 64) le_rfl

end Notux.Vmm.Loader
