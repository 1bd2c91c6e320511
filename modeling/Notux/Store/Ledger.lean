import Notux.Store.Program
import Mathlib.Algebra.Group.Basic

/-!
# Programs that move an amount

A resource counted in memory, such as references, changes by what each part of
a program takes or gives back.  `Shifts fixed amount program delta` says that a
program which returns `value` has changed `amount` by exactly `delta value` and
has left `fixed` alone.  The rules follow the structure of the program: after
the first part of a sequence the rest has to account for the difference.
-/

namespace Notux.Store.Prog

variable {K D E α β γ A : Type} [AddCommGroup A]

/-- A program that returns `value` changes `amount` by `delta value` and keeps
`fixed`. -/
def Shifts (fixed : K → γ) (amount : K → A) (program : Prog K D E α) (delta : α → A) : Prop :=
  ∀ world : World K D, program.wp (fun _ => True) (fun _ _ => True)
    (fun value after => fixed after.mem = fixed world.mem ∧
      amount after.mem = amount world.mem + delta value) world

namespace Shifts

variable {fixed : K → γ} {amount : K → A} {program : Prog K D E α} {delta : α → A}

theorem pure {value : α} (none : delta value = 0) :
    Shifts fixed amount (Pure.pure value : Prog K D E α) delta := by
  intro world
  simp [none]

/-- The rest of a sequence accounts for what the first part has not moved. -/
theorem bind {rest : α → Prog K D E β} {d : α → A} {total : β → A}
    (first : Shifts fixed amount program d)
    (second : ∀ value, Shifts fixed amount (rest value) fun result =>
      total result - d value) :
    Shifts fixed amount (program >>= rest) total := by
  intro world
  rw [wp_bind]
  refine (first world).mono fun value middle ⟨sameFixed, moved⟩ => ?_
  refine (second value middle).mono fun result after ⟨restFixed, restMoved⟩ => ?_
  refine ⟨restFixed.trans sameFixed, ?_⟩
  calc amount after.mem = amount world.mem + d value + (total result - d value) := by
        rw [restMoved, moved]
    _ = amount world.mem + total result := by rw [add_assoc, add_sub_cancel]

/-- A first part that moves nothing. -/
theorem bind_zero {rest : α → Prog K D E β} {total : β → A}
    (first : Shifts fixed amount program fun _ => 0)
    (second : ∀ value, Shifts fixed amount (rest value) total) :
    Shifts fixed amount (program >>= rest) total :=
  first.bind fun value => by simpa using second value

theorem getMem : Shifts fixed amount (Store.getMem : Prog K D E K) fun _ => 0 := by
  intro world
  simp

theorem stop {reason : E} : Shifts fixed amount (Store.stop reason : Prog K D E α) delta :=
  fun _ => trivial

theorem bread {blockno : Nat} :
    Shifts fixed amount (Store.bread blockno : Prog K D E Buf) fun _ => 0 := by
  intro world
  simp

theorem data {bp : Buf} : Shifts fixed amount (Store.data bp : Prog K D E D) fun _ => 0 := by
  intro world
  simp

theorem logWrite {bp : Buf} {contents : D} :
    Shifts fixed amount (Store.logWrite bp contents : Prog K D E Unit) fun _ => 0 := by
  intro world
  simp

/-- An assignment moves what it changes. -/
theorem modifyMem {change : K → K} {moved : A}
    (keeps : ∀ mem, fixed (change mem) = fixed mem)
    (moves : ∀ mem, amount (change mem) = amount mem + moved) :
    Shifts fixed amount (Store.modifyMem change : Prog K D E Unit) fun _ => moved := by
  intro world
  simp [keeps, moves]

theorem when {condition : Prop} [Decidable condition] {body : Prog K D E Unit}
    (body_shifts : condition → Shifts fixed amount body fun _ => 0) :
    Shifts fixed amount (Store.when condition body) fun _ => 0 := by
  unfold Store.when
  split
  · next holds => exact body_shifts holds
  · exact pure rfl

theorem forEach {ι : Type} {items : List ι} {body : ι → Prog K D E Unit}
    (body_shifts : ∀ item ∈ items, Shifts fixed amount (body item) fun _ => 0) :
    Shifts fixed amount (Store.forEach items body) fun _ => 0 := by
  induction items with
  | nil => exact pure rfl
  | cons item rest ih =>
      unfold Store.forEach
      refine bind_zero (body_shifts item List.mem_cons_self) fun _ => ?_
      exact ih fun other member => body_shifts other (List.mem_cons_of_mem _ member)

/-- Coarser bookkeeping: what is fixed may be forgotten, and an amount that
depends on it may be recounted. -/
theorem recount {γ' : Type} {fixed' : K → γ'} {amount' : K → A}
    (shifts : Shifts fixed amount program delta)
    (keeps : ∀ before after, fixed after = fixed before → fixed' after = fixed' before)
    (moves : ∀ before after moved, fixed after = fixed before →
      amount after = amount before + moved → amount' after = amount' before + moved) :
    Shifts fixed' amount' program delta := by
  intro world
  refine (shifts world).mono fun value after ⟨sameFixed, moved⟩ => ?_
  exact ⟨keeps _ _ sameFixed, moves _ _ _ sameFixed moved⟩

/-- Replace the account by an equal one. -/
theorem congr {delta' : α → A} (shifts : Shifts fixed amount program delta)
    (same : ∀ value, delta value = delta' value) : Shifts fixed amount program delta' := by
  rwa [show delta' = delta from (funext same).symm]

end Shifts

end Notux.Store.Prog
