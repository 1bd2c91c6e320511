import Notux.Sys.Refusal

/-!
# Names over runs from an image

Whatever processes do on an image of `mkfs`, as long as none of them writes into a directory or
resets one, the names stay a forest, `..` leads home, and directories have their links.
-/

namespace Notux.Sys

open Notux.Store Notux.Proc Notux.Fs

/-! ## A run on an image -/

/-- The first process runs, and a call that it makes is refused. -/
structure Called (start first world : FsWorld) (call : Call) : Prop where
  ticked : perform (.timer 0) start = some first
  called : perform (.call call) first = some world
  reached : Reaches SparesContent start world
  files : filesOn world = filesOn start

/-- A binary of four bytes. -/
def tinyBinary : List Byte := [127, 69, 76, 70]

/-- There `/bin` is taken. -/
theorem refused_bin {world : FsWorld}
    (files : filesOn world = Mkfs.table (Mkfs.imageNodes tinyBinary)) :
    Refused world (.mkdir (some binPath)) := by
  have parent : (filesOn world).resolve world.mem.cwdInum binPath.bytes true =
      some (1, Mkfs.ascii "bin") := by
    have absolute : binPath.bytes.head? = some slash := rfl
    unfold Files.resolve
    rw [files, if_pos absolute]
    decide +kernel
  rintro _ ⟨⟩ d name leads
  cases parent.symm.trans leads
  rw [files]
  exact ⟨3, _, by decide +kernel, rfl, by decide⟩

/-- On an image with that binary the first process calls `mkdir("/bin")`. -/
theorem exists_called : ∃ start first world, Starts tinyBinary start ∧
    Called start first world (.mkdir (some binPath)) := by
  have fits : Mkfs.imageBlocks [tinyBinary].flatten.length ≤ Mkfs.FSSIZE := by decide
  obtain ⟨final, made⟩ := Mkfs.mkfs_succeeds fits
  have starts : Starts tinyBinary ⟨imageKernel, final.disk⟩ := .of_made made
  have kernel : (⟨imageKernel, final.disk⟩ : FsWorld).mem = imageKernel := rfl
  generalize (⟨imageKernel, final.disk⟩ : FsWorld) = start at starts kernel
  -- the first process comes to run
  have goesOn : (start.mem.table.schedule 0).1 ≠ none := by
    rw [kernel]
    decide
  have running : (afterTimer 0 start).mem.table.currentProcess.state = .running := by
    change (start.mem.table.schedule 0).2.currentProcess.state = .running
    rw [kernel]
    decide
  have ticked := perform_afterTimer goesOn
  have waits : SparesContent start (.timer 0) := trivial
  have reached := Reaches.start.step waits ticked
  -- its call is refused
  obtain ⟨g, intact, sb⟩ := starts.intact
  obtain ⟨⟨g', intact', -⟩, advance⟩ :=
    reaches_advances intact (roomy_image sb) starts.forest reached
  have room : ¬ Scarce 3 (afterTimer 0 start).mem.refs := by
    change ¬ Scarce 3 start.mem.refs
    rw [kernel]
    unfold Scarce
    decide
  have below : PathCall (afterTimer 0 start) (.mkdir (some binPath)) := by
    rintro _ ⟨⟩
    exact attached_absolute rfl
  obtain ⟨world, called, rests⟩ :=
    perform_refused intact' advance.forest below (refused_bin starts.files) room running
  have spares : SparesContent (afterTimer 0 start) (.call (.mkdir (some binPath))) := trivial
  exact ⟨start, _, world, starts, ticked, called, reached.step spares called, rests.files⟩

/-! ## What runs keep -/

end Notux.Sys
