import Notux.Store.State
import Mathlib.Data.Nat.ModEq

/-!
# Ring buffers

A queue of fewer than `n` elements in `n` slots: `head` is the slot of the next element to
come in, `tail` the slot of the next one to go out.  It is empty where the two are equal.
-/

namespace Notux.Store

variable {α : Type} {n head tail : Nat} {slots : Nat → α} {xs : List α}

/-- The slots from `tail` to `head` hold `xs`, the oldest first. -/
structure Queues (n : Nat) (slots : Nat → α) (head tail : Nat) (xs : List α) : Prop where
  begins : tail < n
  ends : head = (tail + xs.length) % n
  fits : xs.length < n
  kept : ∀ k, (inside : k < xs.length) → slots ((tail + k) % n) = xs[k]

/-- Slots at different distances are different. -/
theorem ring_inj {i j : Nat} (iSmall : i < n) (jSmall : j < n)
    (same : (tail + i) % n = (tail + j) % n) : i = j := by
  have distance : i % n = j % n := Nat.ModEq.add_left_cancel' tail same
  rwa [Nat.mod_eq_of_lt iSmall, Nat.mod_eq_of_lt jSmall] at distance

namespace Queues

theorem empty (small : tail < n) : Queues n slots tail tail [] :=
  ⟨small, (Nat.mod_eq_of_lt small).symm, Nat.lt_of_le_of_lt (Nat.zero_le _) small,
    fun _ inside => absurd inside (Nat.not_lt_zero _)⟩

variable (queues : Queues n slots head tail xs)

include queues

theorem head_lt : head < n := by
  rw [queues.ends]
  exact Nat.mod_lt _ (Nat.lt_of_le_of_lt (Nat.zero_le _) queues.begins)

/-- The indices are equal where nothing is queued. -/
theorem empty_iff : head = tail ↔ xs = [] := by
  constructor
  · intro same
    apply List.length_eq_zero_iff.mp
    apply ring_inj queues.fits (Nat.lt_of_le_of_lt (Nat.zero_le _) queues.begins)
    rw [← queues.ends, same, Nat.add_zero, Nat.mod_eq_of_lt queues.begins]
  · rintro rfl
    rw [queues.ends, List.length_nil, Nat.add_zero, Nat.mod_eq_of_lt queues.begins]

theorem next_head : (head + 1) % n = (tail + (xs.length + 1)) % n := by
  rw [queues.ends, Nat.mod_add_mod, Nat.add_assoc]

/-- The next head meets the tail where all slots but one are taken. -/
theorem full_iff : (head + 1) % n = tail ↔ xs.length + 1 = n := by
  rw [queues.next_head]
  constructor
  · intro meets
    by_contra room
    have small : xs.length + 1 < n := Nat.lt_of_le_of_ne queues.fits room
    have none : xs.length + 1 = 0 := by
      apply ring_inj small (Nat.lt_of_le_of_lt (Nat.zero_le _) queues.begins)
      rw [meets, Nat.add_zero, Nat.mod_eq_of_lt queues.begins]
    exact Nat.succ_ne_zero _ none
  · intro all
    rw [all, Nat.add_mod_right, Nat.mod_eq_of_lt queues.begins]

/-- An element that comes in is the last to go out. -/
theorem push (x : α) (room : (head + 1) % n ≠ tail) :
    Queues n (assign slots head x) ((head + 1) % n) tail (xs ++ [x]) := by
  have small : xs.length + 1 < n :=
    Nat.lt_of_le_of_ne queues.fits fun all => room (queues.full_iff.mpr all)
  refine ⟨queues.begins, ?_, ?_, ?_⟩
  · rw [queues.next_head, List.length_append, List.length_singleton]
  · rwa [List.length_append, List.length_singleton]
  · intro k inside
    rw [List.length_append, List.length_singleton] at inside
    by_cases last : k = xs.length
    · subst last
      rw [← queues.ends, assign_self, List.getElem_concat_length rfl]
    · have old : k < xs.length := by omega
      have other : (tail + k) % n ≠ head := by
        intro same
        rw [queues.ends] at same
        exact last (ring_inj (by omega) queues.fits same)
      rw [assign_of_ne other, List.getElem_append_left old]
      exact queues.kept k old

end Queues

/-- The oldest element goes out. -/
theorem Queues.pop {x : α} (queues : Queues n slots head tail (x :: xs)) :
    slots tail = x ∧ Queues n slots head ((tail + 1) % n) xs := by
  have positive : 0 < n := Nat.lt_of_le_of_lt (Nat.zero_le _) queues.begins
  have shift : ∀ k, ((tail + 1) % n + k) % n = (tail + (k + 1)) % n := by
    intro k
    rw [Nat.mod_add_mod, Nat.add_assoc, Nat.add_comm 1 k]
  constructor
  · have first := queues.kept 0 (Nat.succ_pos _)
    rwa [Nat.add_zero, Nat.mod_eq_of_lt queues.begins] at first
  · refine ⟨Nat.mod_lt _ positive, ?_, Nat.lt_of_succ_lt queues.fits, ?_⟩
    · rw [shift]
      exact queues.ends
    · intro k inside
      rw [shift]
      exact queues.kept (k + 1) (Nat.succ_lt_succ inside)

end Notux.Store
