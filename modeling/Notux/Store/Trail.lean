import Mathlib.Data.List.Basic
import Mathlib.Data.List.Nodup
import Mathlib.Tactic.Common

/-!
# Trails

A finite run of a transition system whose events may count as ticks of a clock.  A rank
that every tick lowers and no other event raises bounds the number of ticks for which a
state of affairs lasts.
-/

namespace Notux.Store

variable {State : Type*}

/-- The states that a run comes to after each event, and whether the event was a tick. -/
inductive Trail (event : Bool → State → State → Prop) : State → List (Bool × State) → Prop where
  | nil (state : State) : Trail event state []
  | cons {tick : Bool} {state next : State} {rest : List (Bool × State)}
      (first : event tick state next) (others : Trail event next rest) :
      Trail event state ((tick, next) :: rest)

namespace Trail

/-- The states that the ticks of a run lead to. -/
def ticked : List (Bool × State) → List State
  | [] => []
  | (true, state) :: rest => state :: ticked rest
  | (false, _) :: rest => ticked rest

/-- While `waiting` lasts, ticks lower the rank and no event raises it. -/
structure Ranked (event : Bool → State → State → Prop) (waiting : State → Prop)
    (rank : State → Nat) : Prop where
  notRaised : ∀ {tick state next}, event tick state next → waiting state → waiting next →
    rank next ≤ rank state
  lowered : ∀ {state next}, event true state next → waiting state → waiting next →
    rank next < rank state

variable {event : Bool → State → State → Prop} {waiting : State → Prop} {rank : State → Nat}
  {state : State} {run : List (Bool × State)}

/-- The ranks after the ticks of a wait fall. -/
theorem ranks_fall (ranked : Ranked event waiting rank) (trail : Trail event state run)
    (start : waiting state) (throughout : ∀ entry ∈ run, waiting entry.2) :
    (∀ visited ∈ ticked run, rank visited < rank state) ∧
      (ticked run).Pairwise fun earlier later => rank later < rank earlier := by
  induction trail with
  | nil state =>
      constructor
      · intro visited member
        cases member
      · exact .nil
  | @cons tick state next rest first others ih =>
      have after : waiting next := throughout _ List.mem_cons_self
      obtain ⟨below, falls⟩ := ih after fun entry member =>
        throughout entry (List.mem_cons_of_mem _ member)
      have notAbove : rank next ≤ rank state := ranked.notRaised first start after
      cases tick with
      | false =>
          constructor
          · intro visited member
            exact Nat.lt_of_lt_of_le (below visited member) notAbove
          · exact falls
      | true =>
          have lower : rank next < rank state := ranked.lowered first start after
          constructor
          · intro visited member
            rcases List.mem_cons.mp member with rfl | member
            · exact lower
            · exact Nat.lt_trans (below visited member) lower
          · exact .cons below falls

/-- A list of falling ranks below a bound is no longer than the bound. -/
theorem length_le_of_falling {visited : List State} {bound : Nat}
    (below : ∀ s ∈ visited, rank s < bound)
    (falls : visited.Pairwise fun earlier later => rank later < rank earlier) :
    visited.length ≤ bound := by
  induction visited generalizing bound with
  | nil => exact Nat.zero_le _
  | cons first rest ih =>
      rw [List.pairwise_cons] at falls
      have small : rest.length ≤ rank first := ih falls.1 falls.2
      exact Nat.succ_le_of_lt (Nat.lt_of_le_of_lt small (below first List.mem_cons_self))

/-- A wait lasts for no more ticks than its rank. -/
theorem ticks_le (ranked : Ranked event waiting rank) (trail : Trail event state run)
    (start : waiting state) (throughout : ∀ entry ∈ run, waiting entry.2) :
    (ticked run).length ≤ rank state := by
  obtain ⟨below, falls⟩ := trail.ranks_fall ranked start throughout
  exact length_le_of_falling below falls

/-- A run with more ticks than the rank comes to a state in which the wait is over, and
the first such state is one that a wait can end in. -/
theorem ends {settled : State → Prop} (ranked : Ranked event waiting rank)
    (leaves : ∀ {tick state next}, event tick state next → waiting state → ¬ waiting next →
      settled next)
    (trail : Trail event state run) (start : waiting state)
    (long : rank state < (ticked run).length) : ∃ entry ∈ run, settled entry.2 := by
  by_contra never
  push Not at never
  have throughout : ∀ entry ∈ run, waiting entry.2 := by
    clear long
    induction trail with
    | nil state => intro entry member; cases member
    | @cons tick state next rest first others ih =>
        have after : waiting next := by
          by_contra ended
          exact never _ List.mem_cons_self (leaves first start ended)
        have later := ih after fun entry member => never entry (List.mem_cons_of_mem _ member)
        intro entry member
        rcases List.mem_cons.mp member with rfl | member
        · exact after
        · exact later entry member
  have short := trail.ticks_le ranked start throughout
  omega

end Trail

end Notux.Store
