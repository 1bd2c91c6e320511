import Notux.Proc.Wait
import Notux.Store.Trail

/-!
# Turns

`schedule` looks for a ready slot from the one after the current slot on, so every tick
of the timer brings the current slot nearer to one that waits.  A ready process is passed
over by no other process twice.
-/

namespace Notux.Proc

open Notux.Store

/-- How many slots `schedule` looks at before it comes to `idx`; the current slot is the
last. -/
def turnsBefore (current idx : ProcIdx) : Nat :=
  (idx + (MAX_PROCESSES - 1) - current) % MAX_PROCESSES

theorem turnsBefore_lt (current idx : ProcIdx) : turnsBefore current idx < MAX_PROCESSES :=
  Nat.mod_lt _ (by decide)

theorem turnsBefore_self (idx : ProcIdx) : turnsBefore idx idx = MAX_PROCESSES - 1 := by
  simp only [turnsBefore, MAX_PROCESSES]
  omega

namespace ProcTable

theorem length_others (current : ProcIdx) : (others current).length = MAX_PROCESSES - 1 := by
  simp [others]

theorem getElem_others {current : ProcIdx} {i : Nat} (inside : i < (others current).length) :
    (others current)[i] = Fin.ofNat MAX_PROCESSES (current + (i + 1)) := by
  simp [others]

/-- A slot other than the current one is looked at when its turn comes. -/
theorem others_turnsBefore {current idx : ProcIdx} (differ : idx ≠ current) :
    ∃ inside : turnsBefore current idx < (others current).length,
      (others current)[turnsBefore current idx] = idx := by
  have small := current.isLt
  have small' := idx.isLt
  have values : (idx : Nat) ≠ current := fun same => differ (Fin.ext same)
  simp only [MAX_PROCESSES] at small small'
  have inside : turnsBefore current idx < (others current).length := by
    rw [length_others]
    simp only [turnsBefore, MAX_PROCESSES]
    omega
  refine ⟨inside, Fin.ext ?_⟩
  rw [getElem_others]
  simp only [turnsBefore, Fin.val_ofNat, MAX_PROCESSES]
  omega

/-- Every slot that is looked at earlier is nearer to the one that waits. -/
theorem turnsBefore_others {current idx : ProcIdx} {i : Nat}
    (inside : i < (others current).length) (before : i < turnsBefore current idx) :
    turnsBefore ((others current)[i]) idx < turnsBefore current idx := by
  have small := current.isLt
  have small' := idx.isLt
  rw [getElem_others]
  simp only [turnsBefore, Fin.val_ofNat, MAX_PROCESSES] at small small' before ⊢
  omega

/-- While a slot is ready `schedule` resumes it or a slot that is nearer to it. -/
theorem schedule_nearer {table : ProcTable} {idx : ProcIdx}
    (isReady : (table.processes idx).state = .ready) (currentEsp : Nat) :
    (table.schedule currentEsp).1 ≠ none ∧
      (((table.schedule currentEsp).2.processes idx).state = .running ∨
        turnsBefore (table.schedule currentEsp).2.current idx <
          turnsBefore table.current idx) := by
  unfold schedule
  simp only [saveCurrent_current]
  cases found : (others table.current).find? fun i =>
      ((table.saveCurrent currentEsp).processes i).state = .ready with
  | some next =>
      constructor
      · simp
      · obtain ⟨-, i, inside, rfl, earlier⟩ := List.find?_eq_some_iff_getElem.mp found
        by_cases current : idx = table.current
        · right
          subst current
          apply turnsBefore_others inside
          rw [turnsBefore_self, ← length_others table.current]
          exact inside
        · obtain ⟨within, looked⟩ := others_turnsBefore current
          have notLater : i ≤ turnsBefore table.current idx := by
            by_contra later
            have passed := earlier _ (Nat.lt_of_not_le later)
            rw [looked, table.saveCurrent_processes_of_ne currentEsp current, isReady] at passed
            exact absurd passed (by decide)
          rcases Nat.lt_or_eq_of_le notLater with before | rfl
          · exact Or.inr (turnsBefore_others inside before)
          · left
            simp [looked, activateProcess, modify_same]
  | none =>
      have current : idx = table.current := by
        by_contra differ
        obtain ⟨within, looked⟩ := others_turnsBefore differ
        have passed := List.find?_eq_none.mp found _ (List.getElem_mem within)
        rw [looked, table.saveCurrent_processes_of_ne currentEsp differ, isReady] at passed
        exact passed (by decide)
      subst current
      have alive : table.currentProcess.state = .ready := isReady
      simp only [saveCurrent_state]
      rw [alive, if_pos (by decide)]
      constructor
      · simp
      · left
        simp [modify_same]

end ProcTable

/-! ## Runs with ticks -/

variable (layout : StackLayout)

/-- An event of the process table; a tick is an interrupt of the timer. -/
def Event (tick : Bool) (machine next : Machine) : Prop :=
  Step layout machine next ∧
    (tick = true → ∃ currentEsp,
      next = { table := (machine.table.schedule currentEsp).2
               log := machine.interrupted currentEsp })

/-- The process waits for its turn. -/
def Machine.Waits (idx : ProcIdx) (machine : Machine) : Prop :=
  (machine.table.processes idx).state = .ready

/-- The process has been given the processor, or the spawn that made it has failed. -/
def Machine.Served (idx : ProcIdx) (machine : Machine) : Prop :=
  (machine.table.processes idx).state = .running ∨
    (machine.table.processes idx).state = .terminated

variable {layout}

/-- Only `schedule` changes which slot is the current one. -/
theorem Step.current_eq {machine next : Machine} (step : Step layout machine next) :
    next.table.current = machine.table.current ∨
      ∃ currentEsp, next = { table := (machine.table.schedule currentEsp).2
                             log := machine.interrupted currentEsp } := by
  cases step with
  | createProcess entryPoint pml4 =>
      left
      rcases machine.table.createProcess_cases layout entryPoint pml4 with
        ⟨-, result⟩ | ⟨created, process, -, -, -, current, -, -, -⟩
      · rw [result]
      · exact current
  | setProcessEntry idx entryPoint waiting =>
      left
      simp only [ProcTable.setProcessEntry]
      split <;> rfl
  | setProcessArgv idx argc argvPtr waiting =>
      left
      simp only [ProcTable.setProcessArgv]
      split <;> rfl
  | touch addr word executing own => exact Or.inl rfl
  | schedule currentEsp => exact Or.inr ⟨currentEsp, rfl⟩
  | exit exitCode running => exact Or.inl rfl
  | terminate idx waiting => exact Or.inl rfl
  | wait4 running =>
      left
      rcases machine.table.wait4_cases with result | ⟨found, result⟩
      · rw [result]
      · rw [result, ProcTable.modify_current]

variable (layout) in
/-- A process that waits and goes on waiting comes nearer to its turn with every tick. -/
theorem waits_ranked (idx : ProcIdx) :
    Trail.Ranked (Event layout) (Machine.Waits idx)
      fun machine => turnsBefore machine.table.current idx where
  notRaised := by
    rintro tick machine next ⟨step, -⟩ before after
    rcases step.current_eq with same | ⟨currentEsp, rfl⟩
    · rw [same]
    · rcases (ProcTable.schedule_nearer before currentEsp).2 with runs | nearer
      · exact absurd (after.symm.trans runs) (by decide)
      · exact nearer.le
  lowered := by
    rintro machine next ⟨-, ticks⟩ before after
    obtain ⟨currentEsp, rfl⟩ := ticks rfl
    rcases (ProcTable.schedule_nearer before currentEsp).2 with runs | nearer
    · exact absurd (after.symm.trans runs) (by decide)
    · exact nearer

/-- A process that waits is given the processor or is given up. -/
theorem Step.of_waits {machine next : Machine} (step : Step layout machine next)
    {idx : ProcIdx} (waits : machine.Waits idx) : next.Waits idx ∨ next.Served idx := by
  have isReady : (machine.table.processes idx).state = .ready := waits
  cases step with
  | createProcess entryPoint pml4 =>
      left
      rcases machine.table.createProcess_cases layout entryPoint pml4 with
        ⟨-, result⟩ | ⟨created, process, -, free, -, -, processes, -, -⟩
      · rw [result]
        exact waits
      · have other : idx ≠ created := by
          rintro rfl
          rw [isReady] at free
          cases free
        simpa only [Machine.Waits, processes, Function.update_of_ne other] using isReady
  | setProcessEntry other entryPoint waiting =>
      left
      simpa only [Machine.Waits, ProcTable.setProcessEntry_processes] using isReady
  | setProcessArgv other argc argvPtr waiting =>
      left
      simpa only [Machine.Waits, ProcTable.setProcessArgv_processes] using isReady
  | touch addr word executing own => exact Or.inl waits
  | schedule currentEsp =>
      have live := machine.table.schedule_sameLife currentEsp idx
      cases state : ((machine.table.schedule currentEsp).2.processes idx).state with
      | ready => exact Or.inl state
      | running => exact Or.inr (Or.inl state)
      | zombie =>
          have was : (machine.table.processes idx).state = .zombie := live.zombie.mp state
          exact absurd (isReady.symm.trans was) (by decide)
      | terminated => exact Or.inr (Or.inr state)
  | exit exitCode running =>
      left
      have other : idx ≠ machine.table.current := by
        rintro rfl
        exact absurd (isReady.symm.trans running) (by decide)
      simpa only [Machine.Waits, ProcTable.exitCurrentProcess,
        ProcTable.modify_of_ne _ other] using isReady
  | terminate other waiting =>
      by_cases same : idx = other
      · subst same
        right; right
        simp only [ProcTable.terminate, ProcTable.modify_same]
      · left
        simpa only [Machine.Waits, ProcTable.terminate, ProcTable.modify_of_ne _ same]
          using isReady
  | wait4 running =>
      rcases machine.table.wait4_cases with result | ⟨found, result⟩
      · left
        simpa only [Machine.Waits, result] using isReady
      · by_cases same : idx = found
        · subst same
          right; right
          simp only [result, ProcTable.modify_same]
        · left
          simpa only [Machine.Waits, result, ProcTable.modify_of_ne _ same] using isReady

/-- A process that is ready is given the processor before the timer has ticked eight
times more, unless the spawn that made it gives it up.  As long as it waits, no other
slot is given the processor twice. -/
theorem ready_runs_in_turn {first : Machine} {idx : ProcIdx} {run : List (Bool × Machine)}
    (trail : Trail (Event layout) first run) (waits : first.Waits idx) :
    (MAX_PROCESSES ≤ (Trail.ticked run).length →
      ∃ entry ∈ run, entry.2.Served idx) ∧
    ((∀ entry ∈ run, entry.2.Waits idx) →
      let turns := (Trail.ticked run).map fun machine => machine.table.current
      turns.Nodup ∧ idx ∉ turns) := by
  have ranked := waits_ranked layout idx
  constructor
  · intro long
    have leaves : ∀ {tick : Bool} {machine next : Machine}, Event layout tick machine next →
        machine.Waits idx → ¬ next.Waits idx → next.Served idx :=
      fun event before ended => (event.1.of_waits before).resolve_left ended
    have more : turnsBefore first.table.current idx < (Trail.ticked run).length :=
      Nat.lt_of_lt_of_le (turnsBefore_lt _ _) long
    exact trail.ends ranked leaves waits more
  · intro throughout turns
    obtain ⟨below, falls⟩ := trail.ranks_fall ranked waits throughout
    constructor
    · apply List.pairwise_map.mpr
      apply falls.imp
      intro earlier later lower same
      simp only [same, Nat.lt_irrefl] at lower
    · intro member
      obtain ⟨machine, visited, current⟩ := List.mem_map.mp member
      have lower := below machine visited
      have bound := turnsBefore_lt first.table.current idx
      simp only [current, turnsBefore_self] at lower
      omega

/-- The run of a machine that nothing happens to but ticks of the timer. -/
def ticking (machine : Machine) : Nat → List (Bool × Machine)
  | 0 => []
  | n + 1 =>
      let next : Machine :=
        { table := (machine.table.schedule 0).2, log := machine.interrupted 0 }
      (true, next) :: ticking next n

variable (layout) in
theorem trail_ticking (machine : Machine) (n : Nat) :
    Trail (Event layout) machine (ticking machine n) := by
  induction n generalizing machine with
  | zero => exact .nil machine
  | succ n ih => exact .cons ⟨.schedule machine 0, fun _ => ⟨0, rfl⟩⟩ (ih _)

/-- The third of three processes is given the processor within eight ticks. -/
theorem ready_runs_in_turn_third :
    let layout : StackLayout := ⟨0x100000, 0x200000⟩
    let create := fun table : ProcTable => (table.createProcess layout 0x400000 1).2
    let first : Machine := ⟨create (create (create (.schedulerInit fun _ => 0))), []⟩
    ∃ entry ∈ ticking first 8, entry.2.Served 2 := by
  intro layout create first
  have waits : first.Waits 2 := rfl
  exact (ready_runs_in_turn (trail_ticking layout first 8) waits).1 le_rfl

end Notux.Proc
