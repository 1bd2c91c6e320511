import Notux.Store.State

/-!
# Programs that leave a trace

Code on a state whose accesses are traced, and which stops for good at an access that
fails.  Such code is compared with a program that takes every access for granted:
`Traces` says that the two do the same as long as every access of the trace is as
assumed, and what is then guaranteed of each access.  The rules follow the program,
as those of `Leads` do.
-/

namespace Notux.Store

/-- Code on a state: a value, the state after it and its accesses in their order, or
nothing where an access fails. -/
def Traced (σ ε α : Type) : Type := σ → Option (α × σ × List ε)

namespace Traced

variable {σ ε α β : Type}

/-- Run the code from a state. -/
def run (traced : Traced σ ε α) (state : σ) : Option (α × σ × List ε) := traced state

instance : Monad (Traced σ ε) where
  pure value := fun state => some (value, state, [])
  bind traced next := fun state =>
    (traced state).bind fun first =>
      (next first.1 first.2.1).map fun second =>
        (second.1, second.2.1, first.2.2 ++ second.2.2)

/-- A program without accesses. -/
def ofState (program : StateM σ α) : Traced σ ε α := fun state =>
  some ((program.run state).1, (program.run state).2, [])

/-- One access, and where it leads, if it leads anywhere. -/
def access (entry : σ → ε) (place : ε → Option α) : Traced σ ε α := fun state =>
  (place (entry state)).map fun value => (value, state, [entry state])

/-- Code on a part of the state. -/
def onPart {τ : Type} (part : σ → τ) (put : τ → σ → σ) (traced : Traced τ ε α) : Traced σ ε α :=
  fun state => (traced (part state)).map fun done => (done.1, put done.2.1 state, done.2.2)

theorem run_bind_eq_some {traced : Traced σ ε α} {next : α → Traced σ ε β} {state after : σ}
    {value : β} {trace : List ε} (runs : (traced >>= next).run state = some (value, after, trace)) :
    ∃ first middle early late, traced.run state = some (first, middle, early) ∧
      (next first).run middle = some (value, after, late) ∧ trace = early ++ late := by
  obtain ⟨⟨first, middle, early⟩, starts, rest⟩ := Option.bind_eq_some_iff.mp runs
  obtain ⟨⟨last, final, late⟩, ends, same⟩ := Option.map_eq_some_iff.mp rest
  cases same
  exact ⟨first, middle, early, late, starts, ends, rfl⟩

theorem run_bind_fst {traced : Traced σ ε α} {next : α → Traced σ ε β} {state middle : σ}
    {first : α} {early : List ε} (starts : traced.run state = some (first, middle, early)) :
    ((traced >>= next).run state).map Prod.fst = ((next first).run middle).map Prod.fst := by
  show ((traced.run state).bind _).map _ = _
  rw [starts, Option.bind_some, Option.map_map]
  rfl

end Traced

section

variable {σ ε α β : Type}

/-- Where all accesses are as assumed, they are as guaranteed, the program does what the
traced code does, and comes to a value and a state in `Q`. -/
def Traces (assumed guaranteed : ε → Prop) (traced : Traced σ ε α) (program : StateM σ α)
    (Q : α → σ → Prop) (state : σ) : Prop :=
  ∀ value after trace, traced.run state = some (value, after, trace) →
    (∀ entry ∈ trace, assumed entry) →
      (∀ entry ∈ trace, guaranteed entry) ∧ program.run state = (value, after) ∧ Q value after

namespace Traces

variable {assumed guaranteed : ε → Prop} {traced : Traced σ ε α} {program : StateM σ α}
  {P Q : α → σ → Prop} {state : σ}

theorem mono (traces : Traces assumed guaranteed traced program P state)
    (weaker : ∀ value after, P value after → Q value after) :
    Traces assumed guaranteed traced program Q state := by
  intro value after trace runs met
  obtain ⟨holds, same, post⟩ := traces value after trace runs met
  exact ⟨holds, same, weaker value after post⟩

/-- What the program is known to arrive at. -/
theorem and_leads (traces : Traces assumed guaranteed traced program P state)
    (leads : Leads program Q state) :
    Traces assumed guaranteed traced program (fun value after => P value after ∧ Q value after)
      state := by
  intro value after trace runs met
  obtain ⟨holds, same, post⟩ := traces value after trace runs met
  unfold Leads at leads
  rw [same] at leads
  exact ⟨holds, same, post, leads⟩

theorem leads (traces : Traces assumed guaranteed traced program P state)
    (leads : Leads program Q state) : Traces assumed guaranteed traced program Q state :=
  (traces.and_leads leads).mono fun _ _ both => both.2

theorem pure {value : α} (holds : Q value state) :
    Traces assumed guaranteed (Pure.pure value : Traced σ ε α) (Pure.pure value) Q state := by
  intro other after trace runs _
  cases runs
  exact ⟨fun entry member => (List.not_mem_nil member).elim, rfl, holds⟩

theorem ofState (holds : Leads program Q state) :
    Traces assumed guaranteed (.ofState program) program Q state := by
  intro value after trace runs _
  cases runs
  exact ⟨fun entry member => (List.not_mem_nil member).elim, rfl, holds⟩

theorem ofState_true :
    Traces assumed guaranteed (.ofState program) program (fun _ _ => True) state :=
  .ofState trivial

/-- An access is looked at once. -/
theorem access {entry : σ → ε} {place : ε → Option α} {value : α}
    (leads : assumed (entry state) → guaranteed (entry state) ∧
      (place (entry state) = some value ∨ place (entry state) = none))
    (holds : Q value state) :
    Traces assumed guaranteed (.access entry place) (Pure.pure value) Q state := by
  intro other after trace runs met
  obtain ⟨led, found, same⟩ := Option.map_eq_some_iff.mp runs
  cases same
  obtain ⟨holds', there | nowhere⟩ := leads (met _ List.mem_cons_self)
  · rw [there] at found
    cases found
    refine ⟨fun entry member => ?_, rfl, holds⟩
    rw [List.mem_singleton.mp member]
    exact holds'
  · rw [nowhere] at found
    cases found

theorem bind {next : α → Traced σ ε β} {follow : α → StateM σ β} {R : β → σ → Prop}
    (first : Traces assumed guaranteed traced program Q state)
    (second : ∀ value after, Q value after →
      Traces assumed guaranteed (next value) (follow value) R after) :
    Traces assumed guaranteed (traced >>= next) (program >>= follow) R state := by
  intro value after trace runs met
  obtain ⟨one, middle, early, late, starts, ends, rfl⟩ := Traced.run_bind_eq_some runs
  obtain ⟨holds, same, post⟩ :=
    first one middle early starts fun entry member => met entry (List.mem_append_left _ member)
  obtain ⟨holds', same', post'⟩ :=
    second one middle post value after late ends fun entry member =>
      met entry (List.mem_append_right _ member)
  refine ⟨fun entry member => ?_, ?_, post'⟩
  · exact (List.mem_append.mp member).elim (holds entry) (holds' entry)
  · show (follow (program.run state).1).run (program.run state).2 = (value, after)
    rw [same]
    exact same'

/-- Code that finds a value of the state, where the program knows it. -/
theorem look {next : α → Traced σ ε β} {other : StateM σ β} {found : α} {R : β → σ → Prop}
    (first : Traces assumed guaranteed traced (Pure.pure found)
      (fun value after => value = found ∧ after = state) state)
    (rest : Traces assumed guaranteed (next found) other R state) :
    Traces assumed guaranteed (traced >>= next) other R state := by
  have both : Traces assumed guaranteed (traced >>= next) (Pure.pure found >>= fun _ => other) R
      state := by
    apply first.bind
    rintro value after ⟨rfl, rfl⟩
    exact rest
  exact both

theorem peek {next : σ → Traced σ ε β} {other : StateM σ β} {R : β → σ → Prop}
    (rest : Traces assumed guaranteed (next state) other R state) :
    Traces assumed guaranteed (.ofState MonadState.get >>= next) other R state := by
  have looks : Traces assumed guaranteed (.ofState MonadState.get) (Pure.pure state)
      (fun value after => value = state ∧ after = state) state := by
    intro value after trace runs _
    cases runs
    exact ⟨fun entry member => (List.not_mem_nil member).elim, rfl, rfl, rfl⟩
  exact looks.look rest

theorem ite {condition : Prop} [Decidable condition] {other : Traced σ ε α}
    {alike : StateM σ α} (yes : condition → Traces assumed guaranteed traced program Q state)
    (no : ¬ condition → Traces assumed guaranteed other alike Q state) :
    Traces assumed guaranteed (if condition then traced else other)
      (if condition then program else alike) Q state := by
  split
  · next met => exact yes met
  · next unmet => exact no unmet

/-- The program looks at the state. -/
theorem get {program : σ → StateM σ α}
    (rest : Traces assumed guaranteed traced (program state) Q state) :
    Traces assumed guaranteed traced (MonadState.get >>= program) Q state := rest

theorem onPart {τ : Type} {part : σ → τ} {put : τ → σ → σ} {traced : Traced τ ε α}
    {program : StateM τ α} {whole : StateM σ α} {P : α → τ → Prop}
    (traces : Traces assumed guaranteed traced program P (part state))
    (runs : whole.run state =
      ((program.run (part state)).1, put (program.run (part state)).2 state))
    (holds : ∀ value after, P value after → Q value (put after state)) :
    Traces assumed guaranteed (.onPart part put traced) whole Q state := by
  intro value after trace done met
  obtain ⟨⟨one, middle, all⟩, starts, same⟩ := Option.map_eq_some_iff.mp done
  cases same
  obtain ⟨guaranteed, same, post⟩ := traces one middle all starts met
  refine ⟨guaranteed, ?_, holds one middle post⟩
  rw [runs, same]

end Traces

/-- Wherever an invariant holds, the code does what the program does as long as its accesses are
as assumed; they are then as guaranteed, and the invariant still holds. -/
def Within (invariant : σ → Prop) (assumed guaranteed : ε → Prop) (traced : Traced σ ε α)
    (program : StateM σ α) : Prop :=
  ∀ state, invariant state → Traces assumed guaranteed traced program (fun _ => invariant) state

namespace Within

variable {invariant : σ → Prop} {assumed guaranteed : ε → Prop} {traced : Traced σ ε α}
  {program : StateM σ α}

/-- The program is known to keep the invariant. -/
theorem of_leads
    (traces : ∀ state, invariant state →
      Traces assumed guaranteed traced program (fun _ _ => True) state)
    (keeps : ∀ state, invariant state → Leads program (fun _ => invariant) state) :
    Within invariant assumed guaranteed traced program := fun state holds =>
  (traces state holds).leads (keeps state holds)

theorem pure (value : α) :
    Within invariant assumed guaranteed (Pure.pure value : Traced σ ε α) (Pure.pure value) :=
  fun _ holds => .pure holds

theorem ofState (keeps : ∀ state, invariant state → Leads program (fun _ => invariant) state) :
    Within invariant assumed guaranteed (.ofState program) program :=
  fun state holds => .ofState (keeps state holds)

theorem bind {next : α → Traced σ ε β} {follow : α → StateM σ β}
    (first : Within invariant assumed guaranteed traced program)
    (second : ∀ value, Within invariant assumed guaranteed (next value) (follow value)) :
    Within invariant assumed guaranteed (traced >>= next) (program >>= follow) :=
  fun state holds => (first state holds).bind fun value after holds => second value after holds

theorem ite {condition : Prop} [Decidable condition] {other : Traced σ ε α} {alike : StateM σ α}
    (yes : Within invariant assumed guaranteed traced program)
    (no : Within invariant assumed guaranteed other alike) :
    Within invariant assumed guaranteed (if condition then traced else other)
      (if condition then program else alike) := by
  split
  · exact yes
  · exact no

end Within

/-- Wherever it starts, the code does what the program does as long as all its accesses are as
they should be. -/
def Follows (good : ε → Prop) (traced : Traced σ ε α) (program : StateM σ α) : Prop :=
  ∀ state, Traces good good traced program (fun _ _ => True) state

namespace Follows

variable {good : ε → Prop} {traced : Traced σ ε α} {program : StateM σ α}

theorem run_eq (follows : Follows good traced program) {state after : σ} {value : α}
    {trace : List ε} (runs : traced.run state = some (value, after, trace))
    (met : ∀ entry ∈ trace, good entry) : program.run state = (value, after) :=
  (follows state value after trace runs met).2.1

/-- The code ends where the program does, if its accesses pass a check. -/
theorem exists_run (follows : Follows good traced program) {check : ε → Prop}
    [DecidablePred check] (implies : ∀ {entry}, check entry → good entry) {state : σ}
    (ends : (traced.run state).any (fun done => done.2.2.all fun entry => check entry) = true) :
    ∃ trace, traced.run state = some ((program.run state).1, (program.run state).2, trace) ∧
      ∀ entry ∈ trace, check entry := by
  obtain ⟨⟨value, after, trace⟩, runs, passes⟩ := (Option.any_eq_true _ _).mp ends
  have met : ∀ entry ∈ trace, check entry := fun entry member =>
    of_decide_eq_true (List.all_eq_true.mp passes entry member)
  refine ⟨trace, ?_, met⟩
  rw [follows.run_eq runs fun entry member => implies (met entry member)]
  exact runs

theorem pure (value : α) : Follows good (Pure.pure value : Traced σ ε α) (Pure.pure value) :=
  fun _ => .pure trivial

theorem ofState (program : StateM σ α) : Follows good (.ofState program) program :=
  fun _ => .ofState trivial

theorem bind {next : α → Traced σ ε β} {follow : α → StateM σ β}
    (first : Follows good traced program) (second : ∀ value, Follows good (next value) (follow value)) :
    Follows good (traced >>= next) (program >>= follow) :=
  fun state => (first state).bind fun value after _ => second value after

theorem ite {condition : Prop} [Decidable condition] {other : Traced σ ε α} {alike : StateM σ α}
    (yes : Follows good traced program) (no : Follows good other alike) :
    Follows good (if condition then traced else other) (if condition then program else alike) := by
  split
  · exact yes
  · exact no

/-- The program looks at the state. -/
theorem get {traced : σ → Traced σ ε α} {program : σ → StateM σ α}
    (rest : ∀ state, Follows good (traced state) (program state)) :
    Follows good (.ofState MonadState.get >>= traced) (MonadState.get >>= program) :=
  (ofState _).bind rest

end Follows

end

end Notux.Store
