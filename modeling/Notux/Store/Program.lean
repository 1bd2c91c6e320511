import Mathlib.Logic.Function.Basic
import Mathlib.Data.List.Infix

/-!
# Programs over a buffered block store

Code that works on a block device through a buffer cache asks for a block,
looks at the returned buffer, and writes a buffer back.  A `Prog` is such code
with its requests left open: besides reading and replacing the memory it owns,
it may request a buffer, read the contents of a buffer it holds, write a buffer
through to the device, or stop for good.

This file gives the reference meaning, in which the device is an array of
blocks and buffers are transparent, together with the weakest-precondition
rules by which programs are proved.  A buffer pool is a second meaning of the
same programs.
-/

namespace Notux.Store

/-- A buffer pointer: the pool slot it points to and the block number that was
asked for when it was handed out. -/
structure Buf where
  slot : Nat
  blockno : Nat
deriving DecidableEq, Repr

/-- Code over memory `K`, blocks `D` and stop reasons `E`. -/
inductive Prog (K D E α : Type) : Type where
  | ret (value : α)
  | halt (reason : E)
  | fetch (next : K → Prog K D E α)
  | put (mem : K) (next : Prog K D E α)
  | request (blockno : Nat) (next : Buf → Prog K D E α)
  | look (bp : Buf) (next : D → Prog K D E α)
  | write (bp : Buf) (contents : D) (next : Prog K D E α)

namespace Prog

variable {K D E α β γ : Type}

/-- Run the first program, then the one chosen by its value. -/
def bind : Prog K D E α → (α → Prog K D E β) → Prog K D E β
  | .ret value, rest => rest value
  | .halt reason, _ => .halt reason
  | .fetch next, rest => .fetch fun mem => (next mem).bind rest
  | .put mem next, rest => .put mem (next.bind rest)
  | .request blockno next, rest => .request blockno fun bp => (next bp).bind rest
  | .look bp next, rest => .look bp fun contents => (next contents).bind rest
  | .write bp contents next, rest => .write bp contents (next.bind rest)

instance : Monad (Prog K D E) where
  pure := .ret
  bind := Prog.bind

theorem bind_ret (program : Prog K D E α) : program.bind .ret = program := by
  induction program with
  | ret value => rfl
  | halt reason => rfl
  | fetch next ih => exact congrArg Prog.fetch (funext ih)
  | put mem next ih => exact congrArg (Prog.put mem) ih
  | request blockno next ih => exact congrArg (Prog.request blockno) (funext ih)
  | look bp next ih => exact congrArg (Prog.look bp) (funext ih)
  | write bp contents next ih => exact congrArg (Prog.write bp contents) ih

theorem bind_assoc (program : Prog K D E α) (first : α → Prog K D E β)
    (second : β → Prog K D E γ) :
    (program.bind first).bind second =
      program.bind fun value => (first value).bind second := by
  induction program with
  | ret value => rfl
  | halt reason => rfl
  | fetch next ih => exact congrArg Prog.fetch (funext ih)
  | put mem next ih => exact congrArg (Prog.put mem) ih
  | request blockno next ih => exact congrArg (Prog.request blockno) (funext ih)
  | look bp next ih => exact congrArg (Prog.look bp) (funext ih)
  | write bp contents next ih => exact congrArg (Prog.write bp contents) ih

instance : LawfulMonad (Prog K D E) := LawfulMonad.mk' (Prog K D E)
  bind_ret (fun _ _ => rfl) bind_assoc

end Prog

section Requests

variable {K D E α : Type}

/-- Read the memory. -/
def getMem : Prog K D E K := .fetch .ret

/-- Replace the memory. -/
def setMem (mem : K) : Prog K D E Unit := .put mem (.ret ())

/-- Update the memory. -/
def modifyMem (change : K → K) : Prog K D E Unit := .fetch fun mem => .put (change mem) (.ret ())

/-- Stop for good. -/
def stop (reason : E) : Prog K D E α := .halt reason

/-- Ask for a buffer that holds a block. -/
def bread (blockno : Nat) : Prog K D E Buf := .request blockno .ret

/-- Read the contents of a buffer. -/
def data (bp : Buf) : Prog K D E D := .look bp .ret

/-- Put new contents into a buffer and write it through. -/
def logWrite (bp : Buf) (contents : D) : Prog K D E Unit := .write bp contents (.ret ())

/-- Run a program only if a condition holds. -/
def when (condition : Prop) [Decidable condition] (body : Prog K D E Unit) : Prog K D E Unit :=
  if condition then body else pure ()

/-- Run a program for every item of a list, in order. -/
def forEach {ι : Type} : List ι → (ι → Prog K D E Unit) → Prog K D E Unit
  | [], _ => pure ()
  | item :: rest, body => do
      body item
      forEach rest body

end Requests

/-! ## The device as an array of blocks -/

/-- Memory and device of a run in which buffers are transparent. -/
structure World (K D : Type) where
  mem : K
  disk : Nat → D

/-- How a run ends. -/
inductive Outcome (E α : Type) where
  | ret (value : α)
  | stop (reason : E)
deriving DecidableEq, Repr

/-- A finished run: its outcome, the world it leaves, and the block writes it
issued in program order. -/
structure Run (K D E α : Type) where
  outcome : Outcome E α
  world : World K D
  writes : List (Nat × D)

/-- The device after a list of block writes. -/
def applyWrites {D : Type} : List (Nat × D) → (Nat → D) → Nat → D
  | [], disk => disk
  | (blockno, contents) :: rest, disk =>
      applyWrites rest (Function.update disk blockno contents)

namespace Prog

variable {K D E α β : Type}

/-- Run a program on an array of blocks. -/
def run : Prog K D E α → World K D → Run K D E α
  | .ret value, world => ⟨.ret value, world, []⟩
  | .halt reason, world => ⟨.stop reason, world, []⟩
  | .fetch next, world => (next world.mem).run world
  | .put mem next, world => next.run { world with mem }
  | .request blockno next, world => (next ⟨0, blockno⟩).run world
  | .look bp next, world => (next (world.disk bp.blockno)).run world
  | .write bp contents next, world =>
      let rest := next.run
        { world with disk := Function.update world.disk bp.blockno contents }
      { rest with writes := (bp.blockno, contents) :: rest.writes }

/-- Weakest precondition.  `P` holds of the device after every write, `F` of
the world in which the program stops, and `Q` of the value and the world it
returns with.  Nothing depends on the slot a buffer occupies. -/
def wp (P : (Nat → D) → Prop) (F : E → World K D → Prop) :
    Prog K D E α → (α → World K D → Prop) → World K D → Prop
  | .ret value, Q, world => Q value world
  | .halt reason, _, world => F reason world
  | .fetch next, Q, world => (next world.mem).wp P F Q world
  | .put mem next, Q, world => next.wp P F Q { world with mem }
  | .request blockno next, Q, world => ∀ slot, (next ⟨slot, blockno⟩).wp P F Q world
  | .look bp next, Q, world => (next (world.disk bp.blockno)).wp P F Q world
  | .write bp contents next, Q, world =>
      P (Function.update world.disk bp.blockno contents) ∧
        next.wp P F Q
          { world with disk := Function.update world.disk bp.blockno contents }

variable {P P' : (Nat → D) → Prop} {F F' : E → World K D → Prop}
  {Q Q' : α → World K D → Prop} {world : World K D}

/-- The rule of consequence. -/
theorem wp.conseq {program : Prog K D E α} (holds : program.wp P F Q world)
    (write : ∀ disk, P disk → P' disk)
    (stopped : ∀ reason after, F reason after → F' reason after)
    (returned : ∀ value after, Q value after → Q' value after) :
    program.wp P' F' Q' world := by
  induction program generalizing world with
  | ret value => exact returned _ _ holds
  | halt reason => exact stopped _ _ holds
  | fetch next ih => exact ih _ holds
  | put mem next ih => exact ih holds
  | request blockno next ih => exact fun slot => ih _ (holds slot)
  | look bp next ih => exact ih _ holds
  | write bp contents next ih => exact ⟨write _ holds.1, ih holds.2⟩

/-- Weakening of the postcondition alone. -/
theorem wp.mono {program : Prog K D E α} (holds : program.wp P F Q world)
    (returned : ∀ value after, Q value after → Q' value after) :
    program.wp P F Q' world :=
  holds.conseq (fun _ => id) (fun _ _ => id) returned

/-- Two facts about one program hold together. -/
theorem wp.and {program : Prog K D E α} (first : program.wp P F Q world)
    (second : program.wp P' F' Q' world) :
    program.wp (fun disk => P disk ∧ P' disk)
      (fun reason after => F reason after ∧ F' reason after)
      (fun value after => Q value after ∧ Q' value after) world := by
  induction program generalizing world with
  | ret value => exact ⟨first, second⟩
  | halt reason => exact ⟨first, second⟩
  | fetch next ih => exact ih _ first second
  | put mem next ih => exact ih first second
  | request blockno next ih => exact fun slot => ih _ (first slot) (second slot)
  | look bp next ih => exact ih _ first second
  | write bp contents next ih => exact ⟨⟨first.1, second.1⟩, ih first.2 second.2⟩

@[simp]
theorem wp_pure (value : α) :
    (pure value : Prog K D E α).wp P F Q world ↔ Q value world :=
  Iff.rfl

@[simp]
theorem wp_bind (program : Prog K D E α) (rest : α → Prog K D E β)
    {Q : β → World K D → Prop} :
    (program >>= rest).wp P F Q world ↔
      program.wp P F (fun value after => (rest value).wp P F Q after) world := by
  change (program.bind rest).wp P F Q world ↔ _
  induction program generalizing world with
  | ret value => exact Iff.rfl
  | halt reason => exact Iff.rfl
  | fetch next ih => exact ih _
  | put mem next ih => exact ih
  | request blockno next ih => exact forall_congr' fun slot => ih _
  | look bp next ih => exact ih _
  | write bp contents next ih => exact and_congr_right fun _ => ih

@[simp]
theorem wp_getMem {Q : K → World K D → Prop} :
    (getMem : Prog K D E K).wp P F Q world ↔ Q world.mem world :=
  Iff.rfl

@[simp]
theorem wp_setMem (mem : K) {Q : Unit → World K D → Prop} :
    (setMem mem : Prog K D E Unit).wp P F Q world ↔ Q () { world with mem } :=
  Iff.rfl

@[simp]
theorem wp_modifyMem (change : K → K) {Q : Unit → World K D → Prop} :
    (modifyMem change : Prog K D E Unit).wp P F Q world ↔
      Q () { world with mem := change world.mem } :=
  Iff.rfl

@[simp]
theorem wp_stop (reason : E) :
    (stop reason : Prog K D E α).wp P F Q world ↔ F reason world :=
  Iff.rfl

@[simp]
theorem wp_bread (blockno : Nat) {Q : Buf → World K D → Prop} :
    (bread blockno : Prog K D E Buf).wp P F Q world ↔
      ∀ slot, Q ⟨slot, blockno⟩ world :=
  Iff.rfl

@[simp]
theorem wp_data (bp : Buf) {Q : D → World K D → Prop} :
    (data bp : Prog K D E D).wp P F Q world ↔ Q (world.disk bp.blockno) world :=
  Iff.rfl

@[simp]
theorem wp_logWrite (bp : Buf) (contents : D) {Q : Unit → World K D → Prop} :
    (logWrite bp contents : Prog K D E Unit).wp P F Q world ↔
      P (Function.update world.disk bp.blockno contents) ∧
        Q () { world with disk := Function.update world.disk bp.blockno contents } :=
  Iff.rfl

/-- The rule for counting loops: `I` holds of the number of rounds done. -/
theorem wp_forRange {m : Nat} {body : Nat → Prog K D E Unit} {I : Nat → World K D → Prop}
    (start : I 0 world)
    (step : ∀ j < m, ∀ world, I j world →
      (body j).wp P F (fun _ after => I (j + 1) after) world) :
    (forEach (List.range m) body).wp P F (fun _ after => I m after) world := by
  suffices rounds : ∀ k s world, s + k = m → I s world →
      (forEach (List.range' s k) body).wp P F (fun _ after => I m after) world by
    rw [List.range_eq_range']
    exact rounds m 0 world (Nat.zero_add m) start
  intro k
  induction k with
  | zero =>
      intro s world total done
      exact total ▸ done
  | succ k ih =>
      intro s world total done
      rw [List.range'_succ]
      unfold forEach
      rw [wp_bind]
      exact (step s (by omega) world done).mono fun _ after next => ih _ after (by omega) next

/-- What a finished run owes: the final world satisfies the postcondition of
its outcome. -/
def Run.Ends (F : E → World K D → Prop) (Q : α → World K D → Prop)
    (result : Run K D E α) : Prop :=
  match result.outcome with
  | .ret value => Q value result.world
  | .stop reason => F reason result.world

/-- What a run owes that returns. -/
theorem Run.Ends.returned {result : Run K D E α} (ends : Run.Ends F Q result) {value : α}
    (outcome : result.outcome = .ret value) :
    ∃ after writes, result = ⟨.ret value, after, writes⟩ ∧ Q value after := by
  cases result
  cases outcome
  exact ⟨_, _, rfl, ends⟩

/-- Soundness for the outcome of a run. -/
theorem wp.run {program : Prog K D E α} (holds : program.wp P F Q world) :
    Run.Ends F Q (program.run world) := by
  induction program generalizing world with
  | ret value => exact holds
  | halt reason => exact holds
  | fetch next ih => exact ih _ holds
  | put mem next ih => exact ih holds
  | request blockno next ih => exact ih _ (holds 0)
  | look bp next ih => exact ih _ holds
  | write bp contents next ih => exact ih holds.2

/-- A sequence that returns has run its parts one after the other. -/
theorem run_bind_ret {program : Prog K D E α} {rest : α → Prog K D E β}
    {world after : World K D} {result : β} {writes : List (Nat × D)}
    (returned : (program >>= rest).run world = ⟨.ret result, after, writes⟩) :
    ∃ value middle first second, program.run world = ⟨.ret value, middle, first⟩ ∧
      (rest value).run middle = ⟨.ret result, after, second⟩ := by
  change (program.bind rest).run world = _ at returned
  induction program generalizing world writes with
  | ret value => exact ⟨value, world, [], writes, rfl, returned⟩
  | halt reason => cases returned
  | fetch next ih => exact ih _ returned
  | put mem next ih => exact ih returned
  | request blockno next ih => exact ih _ returned
  | look bp next ih => exact ih _ returned
  | write bp contents next ih =>
      cases step : (next.bind rest).run
          { world with disk := Function.update world.disk bp.blockno contents } with
      | mk outcome final tail =>
          simp only [bind, run, step, Run.mk.injEq] at returned
          obtain ⟨rfl, rfl, -⟩ := returned
          obtain ⟨value, middle, first, second, start, finish⟩ := ih step
          refine ⟨value, middle, (bp.blockno, contents) :: first, second, ?_, finish⟩
          simp only [run, start]

/-- Soundness for the devices a run passes through: after every non-empty
prefix of its writes the device satisfies `P`. -/
theorem wp.writes {program : Prog K D E α} (holds : program.wp P F Q world)
    {done : List (Nat × D)} (isPrefix : done <+: (program.run world).writes)
    (nonempty : done ≠ []) : P (applyWrites done world.disk) := by
  induction program generalizing world done with
  | ret value => exact absurd (List.prefix_nil.mp isPrefix) nonempty
  | halt reason => exact absurd (List.prefix_nil.mp isPrefix) nonempty
  | fetch next ih => exact ih _ holds isPrefix nonempty
  | put mem next ih => exact ih holds isPrefix nonempty
  | request blockno next ih => exact ih _ (holds 0) isPrefix nonempty
  | look bp next ih => exact ih _ holds isPrefix nonempty
  | write bp contents next ih =>
      cases done with
      | nil => exact absurd rfl nonempty
      | cons first rest =>
          obtain ⟨rfl, restPrefix⟩ := List.cons_prefix_cons.mp isPrefix
          cases rest with
          | nil => exact holds.1
          | cons second tail => exact ih holds.2 restPrefix (List.cons_ne_nil _ _)

/-- The writes of a run lead from the initial to the final device. -/
theorem run_disk (program : Prog K D E α) (world : World K D) :
    (program.run world).world.disk =
      applyWrites (program.run world).writes world.disk := by
  induction program generalizing world with
  | ret value => rfl
  | halt reason => rfl
  | fetch next ih => exact ih _ _
  | put mem next ih => exact ih _
  | request blockno next ih => exact ih _ _
  | look bp next ih => exact ih _ _
  | write bp contents next ih => exact ih _

end Prog

end Notux.Store
