import Notux.Vmm.Machine

/-!
# What a load takes and what it looks at

Nothing on the way from `create_user_pml4` to a loaded image gives a frame back.
And what the loader does is decided by the bytes below the size of the file.
-/

namespace Notux.Vmm

open Notux.Store

/-! ## Frames stay taken -/

/-- A program gives no frame back. -/
def KeepsTaken {α : Type} (program : VmM α) : Prop :=
  ∀ vm i, vm.bitmap i = true → Leads program (fun _ after => after.bitmap i = true) vm

namespace KeepsTaken

variable {α β : Type} {program : VmM α}

theorem pure (value : α) : KeepsTaken (Pure.pure value : VmM α) := fun _ _ taken => taken

theorem bind {next : α → VmM β} (first : KeepsTaken program)
    (second : ∀ value, KeepsTaken (next value)) : KeepsTaken (program >>= next) :=
  fun vm i taken => second _ _ i (first vm i taken)

theorem get {next : Vm → VmM β} (second : ∀ vm, KeepsTaken (next vm)) :
    KeepsTaken (MonadState.get >>= next) := fun vm i taken => second vm vm i taken

theorem update {change : Vm → Vm} (same : ∀ vm, (change vm).bitmap = vm.bitmap) :
    KeepsTaken (modify change : VmM PUnit) :=
  fun vm i taken => (congrFun (same vm) i).trans taken

theorem ite {condition : Prop} [Decidable condition] {other : VmM α} (first : KeepsTaken program)
    (second : KeepsTaken other) : KeepsTaken (if condition then program else other) := by
  split
  · exact first
  · exact second

end KeepsTaken

/-- A frame that is handed out is taken, and the others stay as they are. -/
theorem pmmAllocPage_takes {vm : Vm} {i : Nat} (search : nextFrame vm.bitmap = some i) :
    Leads pmmAllocPage (fun _ after => after.bitmap i = true) vm := by
  unfold pmmAllocPage
  rw [leads_bind, leads_get, search]
  exact assign_self

theorem pmmAllocPage_taken : KeepsTaken pmmAllocPage := by
  intro vm i taken
  unfold pmmAllocPage
  rw [leads_bind, leads_get]
  cases search : nextFrame vm.bitmap with
  | none => exact taken
  | some j =>
      change assign vm.bitmap j true i = true
      unfold assign
      split
      · rfl
      · exact taken

theorem setEntry_taken (table : Addr) (idx : Nat) (entry : Addr) :
    KeepsTaken (setEntry table idx entry) := .update fun _ => rfl

theorem fillTable_taken (table : Addr) (entries : Nat → Addr) :
    KeepsTaken (fillTable table entries) := .update fun _ => rfl

theorem newLevel_taken (table : Addr) (idx : Nat) : KeepsTaken (newLevel table idx) := by
  unfold newLevel
  apply pmmAllocPage_taken.bind
  intro newTable
  apply KeepsTaken.ite
  · exact .pure 0
  · exact (fillTable_taken newTable _).bind fun _ => (setEntry_taken table idx _).bind fun _ =>
      .pure newTable

theorem getNextLevel_taken (table : Addr) (idx : Nat) : KeepsTaken (getNextLevel table idx) := by
  unfold getNextLevel
  apply KeepsTaken.get
  intro vm
  exact (KeepsTaken.pure _).ite (newLevel_taken table idx)

theorem splitHugePde_taken (table : Addr) (idx : Nat) : KeepsTaken (splitHugePde table idx) := by
  unfold splitHugePde
  apply KeepsTaken.get
  intro vm
  apply (KeepsTaken.pure 0).ite
  apply (KeepsTaken.pure _).ite
  apply pmmAllocPage_taken.bind
  intro pt
  apply (KeepsTaken.pure 0).ite
  exact (fillTable_taken pt _).bind fun _ => (setEntry_taken table idx _).bind fun _ => .pure pt

theorem mapTable_taken (pd : Addr) (idx : Nat) : KeepsTaken (mapTable pd idx) := by
  unfold mapTable
  apply KeepsTaken.get
  intro vm
  exact ((splitHugePde_taken pd idx).ite (.pure _)).ite (newLevel_taken pd idx)

theorem writePte_taken (pml4 pt virt entry : Addr) : KeepsTaken (writePte pml4 pt virt entry) := by
  unfold writePte
  exact (setEntry_taken pt _ entry).bind fun _ => .update fun _ => rfl

theorem vmmMapPage_taken (pml4 virt phys flags : Addr) :
    KeepsTaken (vmmMapPage pml4 virt phys flags) := by
  unfold vmmMapPage
  apply (KeepsTaken.pure ()).ite
  apply (getNextLevel_taken pml4 _).bind
  intro pdp
  apply (KeepsTaken.pure ()).ite
  apply (getNextLevel_taken pdp _).bind
  intro pd
  apply (KeepsTaken.pure ()).ite
  apply (mapTable_taken pd _).bind
  intro pt
  exact (KeepsTaken.pure ()).ite (writePte_taken pml4 pt virt _)

theorem copyDirectory_taken (userPdp kernelPdp : Addr) (idx : Nat) :
    KeepsTaken (copyDirectory userPdp kernelPdp idx) := by
  unfold copyDirectory
  apply KeepsTaken.get
  intro vm
  apply (KeepsTaken.pure true).ite
  apply (KeepsTaken.pure true).ite
  apply pmmAllocPage_taken.bind
  intro userPd
  apply (KeepsTaken.pure false).ite
  apply (fillTable_taken userPd _).bind
  intro _
  apply (setEntry_taken userPdp idx _).bind
  intro _
  apply KeepsTaken.get
  intro vm
  exact (fillTable_taken userPd _).bind fun _ => .pure true

theorem copyDirectories_taken (userPdp kernelPdp : Addr) (indices : List Nat) :
    KeepsTaken (copyDirectories userPdp kernelPdp indices) := by
  induction indices with
  | nil => exact .pure true
  | cons idx rest ih =>
      exact (copyDirectory_taken userPdp kernelPdp idx).bind fun _ => ih.ite (.pure false)

/-- The frame that a new root asks for first is taken afterwards, whatever comes of it. -/
theorem createUserPml4_takes {vm : Vm} {i : Nat} (search : nextFrame vm.bitmap = some i) :
    Leads createUserPml4 (fun _ after => after.bitmap i = true) vm := by
  have rest : ∀ userPml4 : Addr, KeepsTaken (do
      zeroTable userPml4
      let vm ← get
      if vm.kernelPml4 = 0 then return 0
      else
        let first := vm.tables vm.kernelPml4 0
        if first &&& PAGE_PRESENT = 0 then return userPml4
        else if first &&& PAGE_MASK = 0 then return userPml4
        else
          let userPdp ← pmmAllocPage
          if userPdp = 0 then return 0
          else
            zeroTable userPdp
            setEntry userPml4 0 (tableEntry userPdp)
            if ← copyDirectories userPdp (first &&& PAGE_MASK) (List.range 4) then
              let vm ← get
              let mine := vm.tables userPml4 0
              let others := vm.tables vm.kernelPml4
              fillTable userPml4 fun i => if i = 0 then mine else others i
              return userPml4
            else return 0) := by
    intro userPml4
    apply (fillTable_taken userPml4 _).bind
    intro _
    apply KeepsTaken.get
    intro vm
    apply (KeepsTaken.pure 0).ite
    apply (KeepsTaken.pure userPml4).ite
    apply (KeepsTaken.pure userPml4).ite
    apply pmmAllocPage_taken.bind
    intro userPdp
    apply (KeepsTaken.pure 0).ite
    apply (fillTable_taken userPdp _).bind
    intro _
    apply (setEntry_taken userPml4 0 _).bind
    intro _
    apply (copyDirectories_taken userPdp _ _).bind
    intro copied
    apply KeepsTaken.ite
    · apply KeepsTaken.get
      intro vm
      exact (fillTable_taken userPml4 _).bind fun _ => .pure userPml4
    · exact .pure 0
  unfold createUserPml4
  rw [leads_bind]
  apply (pmmAllocPage_takes search).mono
  intro userPml4 after taken
  exact ((KeepsTaken.pure 0).ite (rest userPml4)) after i taken

theorem loadPages_taken (pml4 fileSize : Addr) (ph : Phdr) (count : Nat) (page : Addr) :
    KeepsTaken (loadPages pml4 fileSize ph count page) := by
  induction count generalizing page with
  | zero => exact .pure true
  | succ count ih =>
      unfold loadPages
      apply pmmAllocPage_taken.bind
      intro phys
      apply (KeepsTaken.pure false).ite
      exact (vmmMapPage_taken pml4 page phys _).bind fun _ => (ih _).ite (.pure false)

theorem loadSegments_taken (pml4 fileSize : Addr) (phdrs : List Phdr) :
    KeepsTaken (loadSegments pml4 fileSize phdrs) := by
  induction phdrs with
  | nil => exact .pure true
  | cons ph rest ih =>
      have segment : KeepsTaken (loadSegment pml4 fileSize ph) := by
        unfold loadSegment
        apply KeepsTaken.ite
        · exact (KeepsTaken.pure true).ite ((loadPages_taken pml4 fileSize ph _ _).ite (.pure false))
        · exact .pure false
      unfold loadSegments
      exact (segment.bind fun _ => ih.ite (.pure false)).ite ih

theorem loadElfIntoProcess_taken (pml4 : Addr) (file : ElfFile) :
    KeepsTaken (loadElfIntoProcess pml4 file) := by
  unfold loadElfIntoProcess
  apply (KeepsTaken.pure false).ite
  apply KeepsTaken.ite
  · exact (loadSegments_taken pml4 _ _).bind fun _ => (KeepsTaken.pure _).ite (.pure false)
  · exact .pure false

/-! ## Only the file counts -/

/-- Two files of one size with the same bytes below it. -/
structure SameFile (file other : ElfFile) : Prop where
  size : other.size = file.size
  bytes : ∀ i < file.size, other.bytes i = file.bytes i

section

variable {file other : ElfFile}

theorem SameFile.word (same : SameFile file other) {off count : Nat}
    (inFile : off + count ≤ file.size) : other.word off count = file.word off count := by
  unfold ElfFile.word
  apply List.foldr_ext
  intro i member value
  have below := List.mem_range.mp member
  rw [same.bytes (off + i) (by omega)]

theorem SameFile.symm (same : SameFile file other) : SameFile other file :=
  ⟨same.size.symm, fun i below => (same.bytes i (same.size ▸ below)).symm⟩

theorem SameFile.passes (same : SameFile file other) (ok : file.headerOk = true) :
    other.headerOk = true := by
  simp only [ElfFile.headerOk, decide_eq_true_iff] at ok ⊢
  simp only [ElfFile.eMachine, ElfFile.eType, ElfFile.ePhnum, ElfFile.ePhentsize,
    ElfFile.ePhoff] at ok ⊢
  have large : 64 ≤ file.size := ok.1
  rw [same.size, same.bytes 0 (by omega), same.bytes 1 (by omega), same.bytes 2 (by omega),
    same.bytes 3 (by omega), same.bytes 4 (by omega), same.bytes 5 (by omega),
    same.word (show 18 + 2 ≤ file.size by omega), same.word (show 16 + 2 ≤ file.size by omega),
    same.word (show 56 + 2 ≤ file.size by omega), same.word (show 54 + 2 ≤ file.size by omega),
    same.word (show 32 + 8 ≤ file.size by omega)]
  exact ok

theorem SameFile.headerOk (same : SameFile file other) : other.headerOk = file.headerOk :=
  Bool.eq_iff_iff.mpr ⟨same.symm.passes, same.passes⟩

theorem SameFile.phdr (same : SameFile file other) (ok : file.headerOk = true) {i : Nat}
    (bound : i < file.ePhnum) : other.phdr i = file.phdr i := by
  simp only [ElfFile.headerOk, decide_eq_true_iff] at ok
  obtain ⟨whole, -, -, -, -, -, -, -, -, -, entry, phoff, table⟩ := ok
  have large : 64 ≤ file.size := whole
  rw [entry] at table
  simp only [PHDR_SIZE] at table
  have inTable : i * 56 + 56 ≤ file.ePhnum * 56 := by omega
  have sameOff : other.ePhoff = file.ePhoff := same.word (show 32 + 8 ≤ file.size by omega)
  simp only [ElfFile.phdr, sameOff, PHDR_SIZE]
  rw [same.word (by omega), same.word (by omega), same.word (by omega), same.word (by omega),
    same.word (by omega), same.word (by omega)]

/-- The loader does the same with two files that agree below their size. -/
theorem SameFile.loads (same : SameFile file other) (pml4 : Addr) :
    loadElfIntoProcess pml4 other = loadElfIntoProcess pml4 file := by
  unfold loadElfIntoProcess
  rw [same.headerOk]
  by_cases ok : file.headerOk = true
  · have large : 64 ≤ file.size := by
      have checks := ok
      simp only [ElfFile.headerOk, decide_eq_true_iff] at checks
      exact checks.1
    have phnum : other.ePhnum = file.ePhnum := same.word (show 56 + 2 ≤ file.size by omega)
    have headers : (List.range other.ePhnum).map other.phdr =
        (List.range file.ePhnum).map file.phdr := by
      rw [phnum]
      apply List.map_congr_left
      intro i member
      exact same.phdr ok (List.mem_range.mp member)
    rw [headers, same.size]
  · rw [if_neg ok, if_neg ok]

/-- A file shorter than the ELF header is not loaded, and nothing is taken for it. -/
theorem loadElfIntoProcess_short (short : file.size < EHDR_SIZE) (pml4 : Addr) :
    loadElfIntoProcess pml4 file = pure false := by
  have bad : ¬ file.headerOk = true := by
    simp only [ElfFile.headerOk, decide_eq_true_iff]
    exact fun ok => absurd ok.1 (Nat.not_le_of_lt short)
  unfold loadElfIntoProcess
  rw [if_neg bad, ite_self]

end

end Notux.Vmm
