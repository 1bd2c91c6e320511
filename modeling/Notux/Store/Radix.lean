import Mathlib.Logic.Basic

/-!
# Trees of tables

A walk starts at a root table and goes down one level at a time, by one index a
level, until it comes to a slot that is empty or holds a value.  Values may stand
at any level.  When no table has two places, a slot lies on exactly the walks that
share the indices down to it, so changing the slot, or hanging a fresh table behind
it, changes these walks and no others.
-/

namespace Notux.Store

variable {T V ι : Type}

/-- What a slot of a table holds. -/
inductive Slot (T V : Type) where
  | empty
  | leaf (value : V)
  | next (table : T)

/-- The slots of all tables, as each level reads them. -/
abbrev Slots (T V ι : Type) := Nat → T → ι → Slot T V

/-- The value at the end of a walk, and the level it stands at. -/
def walk (slots : Slots T V ι) : Nat → T → (Nat → ι) → Option (Nat × V)
  | 0, table, index =>
      match slots 0 table (index 0) with
      | .leaf value => some (0, value)
      | _ => none
  | level + 1, table, index =>
      match slots (level + 1) table (index (level + 1)) with
      | .empty => none
      | .leaf value => some (level + 1, value)
      | .next below => walk slots level below index

/-- The walk comes to a table at a level. -/
inductive Comes (slots : Slots T V ι) (top : Nat) (root : T) (index : Nat → ι) :
    Nat → T → Prop where
  | start : Comes slots top root index top root
  | next {level : Nat} {table below : T} (comes : Comes slots top root index (level + 1) table)
      (leads : slots (level + 1) table (index (level + 1)) = .next below) :
      Comes slots top root index level below

/-- The table a walk comes to after some steps. -/
def reach (slots : Slots T V ι) (top : Nat) (root : T) (index : Nat → ι) : Nat → Option T
  | 0 => some root
  | steps + 1 =>
      match reach slots top root index steps with
      | none => none
      | some table =>
          match slots (top - steps) table (index (top - steps)) with
          | .next below => some below
          | _ => none

/-- Two walks take the same indices from the top down to a level. -/
def Agree (top level : Nat) (index other : Nat → ι) : Prop :=
  ∀ j, level ≤ j → j ≤ top → other j = index j

/-- No table has two places. -/
def Unshared (slots : Slots T V ι) (top : Nat) (root : T) : Prop :=
  ∀ {index other : Nat → ι} {level level' : Nat} {table : T},
    Comes slots top root index level table → Comes slots top root other level' table →
      level = level' ∧ Agree top (level + 1) index other

/-! ## A walk -/

section

variable {slots slots' : Slots T V ι} {top level level' : Nat} {root table table' : T}
  {index other : Nat → ι}

theorem walk_of_empty (empty : slots level table (index level) = .empty) :
    walk slots level table index = none := by
  cases level with
  | zero => rw [walk, empty]
  | succ level => rw [walk, empty]

theorem walk_of_leaf {value : V} (leaf : slots level table (index level) = .leaf value) :
    walk slots level table index = some (level, value) := by
  cases level with
  | zero => rw [walk, leaf]
  | succ level => rw [walk, leaf]

theorem walk_of_next {below : T} (next : slots (level + 1) table (index (level + 1)) = .next below) :
    walk slots (level + 1) table index = walk slots level below index := by
  rw [walk, next]

namespace Comes

theorem le (comes : Comes slots top root index level table) : level ≤ top := by
  induction comes with
  | start => exact Nat.le_refl _
  | next _ _ ih => exact Nat.le_of_succ_le ih

theorem unique (first : Comes slots top root index level table)
    (second : Comes slots top root index level table') : table = table' := by
  induction first generalizing table' with
  | start =>
      cases second with
      | start => rfl
      | next comes _ => exact absurd comes.le (Nat.not_succ_le_self _)
  | next comes leads ih =>
      cases second with
      | start => exact absurd comes.le (Nat.not_succ_le_self _)
      | next comes' leads' =>
          rw [ih comes', leads'] at leads
          cases leads
          rfl

/-- On its way a walk comes to a table at every level. -/
theorem above (comes : Comes slots top root index level table) (lower : level ≤ level')
    (upper : level' ≤ top) : ∃ passed, Comes slots top root index level' passed := by
  induction comes with
  | start =>
      obtain rfl := Nat.le_antisymm upper lower
      exact ⟨root, .start⟩
  | @next level table below comes leads ih =>
      rcases Nat.eq_or_lt_of_le lower with rfl | later
      · exact ⟨below, comes.next leads⟩
      · exact ih later

/-- The rest of a walk is the walk from where it has come to. -/
theorem walk_eq (comes : Comes slots top root index level table) :
    walk slots top root index = walk slots level table index := by
  induction comes with
  | start => rfl
  | next _ leads ih => rw [ih, walk_of_next leads]

/-- A walk depends on the indices above. -/
theorem transport (comes : Comes slots top root index level table)
    (agree : Agree top (level + 1) index other) : Comes slots top root other level table := by
  induction comes with
  | start => exact .start
  | @next level table below comes leads ih =>
      apply Comes.next (ih fun j above bound => agree j (Nat.le_of_succ_le above) bound)
      rw [agree (level + 1) (Nat.le_refl _) comes.le]
      exact leads

end Comes

theorem comes_iff_reach {steps : Nat} (bound : steps ≤ top) :
    Comes slots top root index (top - steps) table ↔
      reach slots top root index steps = some table := by
  induction steps generalizing table with
  | zero =>
      rw [reach, Option.some.injEq, Nat.sub_zero]
      constructor
      · exact fun comes => Comes.start.unique comes
      · rintro rfl
        exact .start
  | succ steps ih =>
      have level_eq : top - steps = top - (steps + 1) + 1 := by omega
      constructor
      · intro comes
        generalize level_is : top - (steps + 1) = level at comes level_eq
        cases comes with
        | start => omega
        | next above leads =>
            rw [← level_eq] at above leads
            rw [reach, (ih (by omega)).mp above]
            dsimp only
            rw [leads]
      · intro reached
        rw [reach] at reached
        split at reached
        · cases reached
        · next above came =>
          split at reached
          · next below leads =>
            cases reached
            have comes := (ih (by omega)).mpr came
            rw [level_eq] at comes leads
            exact comes.next leads
          · cases reached

/-- Walks that read the same slots are the same. -/
theorem comes_congr
    (same : ∀ {level table}, Comes slots top root index level table →
      slots' level table (index level) = slots level table (index level)) :
    Comes slots' top root index level table ↔ Comes slots top root index level table := by
  constructor
  · intro comes
    induction comes with
    | start => exact .start
    | next _ leads ih => exact .next ih ((same ih).symm.trans leads)
  · intro comes
    induction comes with
    | start => exact .start
    | next comes leads ih => exact .next ih ((same comes).trans leads)

theorem walk_congr
    (same : ∀ {level table}, Comes slots top root index level table →
      slots' level table (index level) = slots level table (index level)) :
    walk slots' top root index = walk slots top root index := by
  have below : ∀ level table, Comes slots top root index level table →
      walk slots' level table index = walk slots level table index := by
    intro level
    induction level with
    | zero =>
        intro table comes
        rw [walk, walk, same comes]
    | succ level ih =>
        intro table comes
        rw [walk, walk, same comes]
        cases slot : slots (level + 1) table (index (level + 1)) with
        | empty => rfl
        | leaf value => rfl
        | next next => exact ih next (comes.next slot)
  exact below top root .start

end

/-! ## Changing a slot -/

section

variable {slots slots' : Slots T V ι} {top here level : Nat} {root table fresh : T}
  {index other : Nat → ι}

/-- The slots differ in one slot, and in a table that no walk comes to. -/
structure Changes (slots slots' : Slots T V ι) (top : Nat) (root : T) (index : Nat → ι)
    (here : Nat) (table fresh : T) : Prop where
  unshared : Unshared slots top root
  comes : Comes slots top root index here table
  unreached : ∀ {other level}, ¬ Comes slots top root other level fresh
  elsewhere : ∀ {level t j}, t ≠ fresh → t ≠ table ∨ j ≠ index here →
    slots' level t j = slots level t j

namespace Changes

variable (changes : Changes slots slots' top root index here table fresh)

include changes

/-- Another walk does not read the slot. -/
theorem same_of_not_agree (differ : ¬ Agree top here index other) {t : T}
    (comes : Comes slots top root other level t) :
    slots' level t (other level) = slots level t (other level) := by
  apply changes.elsewhere
  · rintro rfl
    exact changes.unreached comes
  · by_cases sameTable : t = table
    · subst sameTable
      right
      intro sameIndex
      obtain ⟨rfl, agree⟩ := changes.unshared changes.comes comes
      apply differ
      intro j above bound
      rcases Nat.eq_or_lt_of_le above with rfl | later
      · exact sameIndex
      · exact agree j later bound
    · exact Or.inl sameTable

/-- Walks that do not pass the slot stay. -/
theorem walk_of_not_agree (differ : ¬ Agree top here index other) :
    walk slots' top root other = walk slots top root other :=
  walk_congr (changes.same_of_not_agree differ)

/-- Walks that pass the slot still come to it. -/
theorem comes_of_agree (agree : Agree top here index other) :
    Comes slots' top root other here table := by
  have above : ∀ {level t}, Comes slots top root index level t → here ≤ level →
      Comes slots' top root other level t := by
    intro level t comes
    induction comes with
    | start =>
        intro _
        exact .start
    | @next level t below comes leads ih =>
        intro le
        apply Comes.next (ih (Nat.le_succ_of_le le))
        rw [agree (level + 1) (Nat.le_succ_of_le le) comes.le]
        rw [changes.elsewhere, leads]
        · rintro rfl
          exact changes.unreached comes
        · left
          rintro rfl
          have same := (changes.unshared comes changes.comes).1
          omega
  exact above changes.comes (Nat.le_refl _)

theorem walk_of_agree (agree : Agree top here index other) :
    walk slots' top root other = walk slots' here table other :=
  (changes.comes_of_agree agree).walk_eq

/-- The tables a walk comes to are the ones from before, but below the slot. -/
theorem comes_before {t : T} (comes : Comes slots' top root other level t) :
    Comes slots top root other level t ∨ (level < here ∧ Agree top here index other) := by
  by_cases agree : Agree top here index other
  · by_cases below : level < here
    · exact Or.inr ⟨below, agree⟩
    · left
      have above := Nat.le_of_not_lt below
      induction comes with
      | start => exact .start
      | @next level t t' comes leads ih =>
          have before := ih (by omega) (by omega)
          refine before.next ?_
          rw [← changes.elsewhere, leads]
          · rintro rfl
            exact changes.unreached before
          · left
            rintro rfl
            have same := (changes.unshared before changes.comes).1
            omega
  · left
    exact (comes_congr (changes.same_of_not_agree agree)).mp comes

/-- When the slot leads to the fresh table, and that leads nowhere, it is the only new
one. -/
theorem comes_attached (leads : ∀ other, Agree top here index other →
      slots' here table (other here) = .next fresh)
    (ends : ∀ j below, slots' (here - 1) fresh j ≠ .next below) {t : T}
    (comes : Comes slots' top root other level t) :
    Comes slots top root other level t ∨
      (t = fresh ∧ level + 1 = here ∧ Agree top here index other) := by
  rcases changes.comes_before comes with before | ⟨below, agree⟩
  · exact Or.inl before
  · right
    have at_ := changes.comes_of_agree agree
    have first : ∀ {t}, Comes slots' top root other (here - 1) t → t = fresh := by
      intro t comes
      have step : Comes slots' top root other (here - 1) fresh := by
        obtain ⟨k, rfl⟩ : ∃ k, here = k + 1 := ⟨here - 1, by omega⟩
        exact at_.next (leads other agree)
      exact comes.unique step
    have deep : ∀ {level t}, Comes slots' top root other level t → level < here →
        level + 1 = here := by
      intro level t comes
      induction comes with
      | start =>
          intro low
          have := at_.le
          omega
      | @next level t t' comes' leads' ih =>
          intro low
          by_cases last : level + 1 = here
          · exact last
          · exfalso
            have previous := ih (by omega)
            have level_eq : level + 1 = here - 1 := by omega
            rw [level_eq] at comes' leads'
            rw [first comes'] at leads'
            exact ends _ _ leads'
    have last := deep comes below
    have level_eq : level = here - 1 := by omega
    subst level_eq
    exact ⟨first comes, last, agree⟩

/-- A fresh table behind a slot is shared by no one. -/
theorem unshared_attached (leads : ∀ other, Agree top here index other →
      slots' here table (other here) = .next fresh)
    (ends : ∀ j below, slots' (here - 1) fresh j ≠ .next below) :
    Unshared slots' top root := by
  intro index₁ index₂ level₁ level₂ t first second
  rcases changes.comes_attached leads ends first with old₁ | ⟨rfl, level₁_eq, agree₁⟩
  · rcases changes.comes_attached leads ends second with old₂ | ⟨rfl, -, -⟩
    · exact changes.unshared old₁ old₂
    · exact absurd old₁ changes.unreached
  · rcases changes.comes_attached leads ends second with old₂ | ⟨-, level₂_eq, agree₂⟩
    · exact absurd old₂ changes.unreached
    · subst level₁_eq
      refine ⟨by omega, fun j above bound => ?_⟩
      exact (agree₂ j above bound).trans (agree₁ j above bound).symm

/-- A slot of the lowest level leads nowhere, before and after. -/
theorem comes_bottom (bottom : here = 0) {t : T} (comes : Comes slots' top root other level t) :
    Comes slots top root other level t := by
  rcases changes.comes_before comes with before | ⟨below, -⟩
  · exact before
  · omega

theorem unshared_bottom (bottom : here = 0) : Unshared slots' top root := by
  intro index₁ index₂ level₁ level₂ t first second
  exact changes.unshared (changes.comes_bottom bottom first) (changes.comes_bottom bottom second)

end Changes

end

end Notux.Store
