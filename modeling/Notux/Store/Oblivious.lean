import Notux.Store.Program

/-!
# Programs that do not look

Two memories may differ in a part that a program neither reads nor writes.  When
`change` rewrites that part, an oblivious program runs alike with and without the
change: it ends in the same way, issues the same writes, and the worlds it leaves
differ by the change alone.  The rules follow the structure of the program.
-/

namespace Notux.Store

variable {K D E α β : Type}

/-- A world with its memory changed. -/
def World.map (change : K → K) (world : World K D) : World K D :=
  { world with mem := change world.mem }

/-- A finished run with the memory it leaves changed. -/
def Run.map (change : K → K) (result : Run K D E α) : Run K D E α :=
  { result with world := result.world.map change }

namespace Prog

/-- The run of a sequence is the run of its first part, and of the rest from where that
part returns. -/
theorem run_bind (program : Prog K D E α) (rest : α → Prog K D E β) (world : World K D) :
    (program >>= rest).run world =
      match (program.run world).outcome with
      | .ret value =>
          { (rest value).run (program.run world).world with
            writes := (program.run world).writes ++
              ((rest value).run (program.run world).world).writes }
      | .stop reason => ⟨.stop reason, (program.run world).world, (program.run world).writes⟩ := by
  change (program.bind rest).run world = _
  induction program generalizing world with
  | ret value => rfl
  | halt reason => rfl
  | fetch next ih => exact ih _ _
  | put mem next ih => exact ih _
  | request blockno next ih => exact ih _ _
  | look bp next ih => exact ih _ _
  | write bp contents next ih =>
      simp only [Prog.bind, run, ih]
      cases (next.run { world with disk := Function.update world.disk bp.blockno contents }).outcome
        with
      | ret value => rfl
      | stop reason => rfl

/-- The program runs alike before and after the change. -/
def Oblivious (change : K → K) (program : Prog K D E α) : Prop :=
  ∀ world, program.run (world.map change) = (program.run world).map change

namespace Oblivious

variable {change : K → K} {program : Prog K D E α}

theorem pure (value : α) : Oblivious change (Pure.pure value : Prog K D E α) := fun _ => rfl

theorem stop (reason : E) : Oblivious change (Store.stop reason : Prog K D E α) := fun _ => rfl

theorem bread (blockno : Nat) : Oblivious change (Store.bread blockno : Prog K D E Buf) :=
  fun _ => rfl

theorem data (bp : Buf) : Oblivious change (Store.data bp : Prog K D E D) := fun _ => rfl

theorem logWrite (bp : Buf) (contents : D) :
    Oblivious change (Store.logWrite bp contents : Prog K D E Unit) := fun _ => rfl

theorem bind {rest : α → Prog K D E β} (first : Oblivious change program)
    (second : ∀ value, Oblivious change (rest value)) : Oblivious change (program >>= rest) := by
  intro world
  rw [run_bind, run_bind, first world]
  cases outcome : (program.run world).outcome with
  | ret value =>
      simp only [Run.map, outcome]
      rw [second value (program.run world).world]
      rfl
  | stop reason =>
      simp only [Run.map, outcome]

/-- A program that looks at the memory, but not at the part that changes. -/
theorem getMem {rest : K → Prog K D E β} (blind : ∀ mem, rest (change mem) = rest mem)
    (second : ∀ mem, Oblivious change (rest mem)) : Oblivious change (Store.getMem >>= rest) := by
  intro world
  change (rest (change world.mem)).run (world.map change) = ((rest world.mem).run world).map change
  rw [blind, second world.mem]

/-- A program that writes back the memory it has looked at. -/
theorem update {rest : K → Prog K D E β}
    (second : ∀ world : World K D,
      (rest (change world.mem)).run (world.map change) = ((rest world.mem).run world).map change) :
    Oblivious change (Store.getMem >>= rest) := second

theorem modifyMem {step : K → K} (commutes : ∀ mem, step (change mem) = change (step mem)) :
    Oblivious change (Store.modifyMem step : Prog K D E Unit) := by
  intro world
  change (⟨.ret (), { world with mem := step (change world.mem) }, []⟩ : Run K D E Unit) = _
  rw [commutes]
  rfl

theorem when {condition : Prop} [Decidable condition] {body : Prog K D E Unit}
    (oblivious : Oblivious change body) : Oblivious change (Store.when condition body) := by
  unfold Store.when
  split
  · exact oblivious
  · exact pure ()

theorem forEach {ι : Type} {body : ι → Prog K D E Unit} (items : List ι)
    (each : ∀ item, Oblivious change (body item)) :
    Oblivious change (Store.forEach items body) := by
  induction items with
  | nil => exact pure ()
  | cons item rest ih =>
      unfold Store.forEach
      exact (each item).bind fun _ => ih

end Oblivious

end Prog

end Notux.Store
