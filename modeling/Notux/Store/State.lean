import Mathlib.Logic.Basic

/-!
# Programs on a state

Code that works on a state and cannot fail is a state monad computation.
`Leads` says what such a computation arrives at, and its rules take a program
apart at every bind, so that a proof follows the program.  `Arrives` is the same
for code that may give up, with a proposition that has to hold when it does.

Memory is a function of addresses.  `assign` writes one value of it; unlike
`Function.update` it casts nothing, and so can be evaluated in the kernel.
-/

namespace Notux.Store

variable {σ α β : Type}

/-! ## Memory -/

/-- Memory with one value written. -/
def assign {ι : Type} [DecidableEq ι] (memory : ι → α) (addr : ι) (value : α) : ι → α :=
  fun other => if other = addr then value else memory other

section

variable {ι : Type} [DecidableEq ι] {memory : ι → α} {addr other : ι} {value : α}

@[simp]
theorem assign_self : assign memory addr value addr = value := if_pos rfl

@[simp]
theorem assign_of_ne (differ : other ≠ addr) : assign memory addr value other = memory other :=
  if_neg differ

theorem assign_eq_self : assign memory addr (memory addr) = memory := by
  funext other
  unfold assign
  split
  · rename_i same
    rw [same]
  · rfl

end

/-! ## Computations -/

/-- Run from a state, the program arrives at a value and a state in `Q`. -/
def Leads (program : StateM σ α) (Q : α → σ → Prop) (state : σ) : Prop :=
  Q (program.run state).1 (program.run state).2

variable {program : StateM σ α} {state : σ}

theorem Leads.mono {P Q : α → σ → Prop} (leads : Leads program P state)
    (weaker : ∀ value after, P value after → Q value after) : Leads program Q state :=
  weaker _ _ leads

theorem Leads.and {P Q : α → σ → Prop} (first : Leads program P state)
    (second : Leads program Q state) :
    Leads program (fun value after => P value after ∧ Q value after) state :=
  ⟨first, second⟩

/-- A program arrives at what its run comes to. -/
theorem leads_run :
    Leads program (fun value after => program.run state = (value, after)) state :=
  rfl

@[simp]
theorem leads_pure {value : α} {Q : α → σ → Prop} :
    Leads (pure value) Q state ↔ Q value state :=
  Iff.rfl

theorem leads_bind {next : α → StateM σ β} {Q : β → σ → Prop} :
    Leads (program >>= next) Q state ↔
      Leads program (fun value after => Leads (next value) Q after) state :=
  Iff.rfl

@[simp]
theorem leads_get {Q : σ → σ → Prop} : Leads get Q state ↔ Q state state :=
  Iff.rfl

@[simp]
theorem leads_modify {change : σ → σ} {Q : PUnit → σ → Prop} :
    Leads (modify change) Q state ↔ Q ⟨⟩ (change state) :=
  Iff.rfl

@[simp]
theorem leads_set {after : σ} {Q : PUnit → σ → Prop} :
    Leads (set after) Q state ↔ Q ⟨⟩ after :=
  Iff.rfl

/-- A property every step keeps holds at the end of a loop over a list. -/
theorem leads_forM {γ : Type} {body : γ → StateM σ PUnit} {I : σ → Prop} {items : List γ}
    (step : ∀ item ∈ items, ∀ before, I before → Leads (body item) (fun _ => I) before)
    (start : I state) : Leads (items.forM body) (fun _ => I) state := by
  induction items generalizing state with
  | nil => exact start
  | cons item rest ih =>
      have first := step item List.mem_cons_self state start
      exact ih (fun other member => step other (List.mem_cons_of_mem item member)) first

/-! ## Computations that may give up -/

/-- Run from a state, the program gives up and `F` holds, or it arrives at a value
and a state in `Q`. -/
def Arrives (program : StateT σ Option α) (F : Prop) (Q : α → σ → Prop) (state : σ) : Prop :=
  match program.run state with
  | none => F
  | some (value, after) => Q value after

section Arrives

variable {program : StateT σ Option α} {state : σ} {F : Prop}

theorem Arrives.mono {P Q : α → σ → Prop} (arrives : Arrives program F P state)
    (weaker : ∀ value after, P value after → Q value after) : Arrives program F Q state := by
  unfold Arrives at *
  cases result : program.run state with
  | none =>
      rw [result] at arrives
      exact arrives
  | some final =>
      rw [result] at arrives
      exact weaker _ _ arrives

@[simp]
theorem arrives_pure {value : α} {Q : α → σ → Prop} :
    Arrives (pure value) F Q state ↔ Q value state :=
  Iff.rfl

@[simp]
theorem arrives_failure {Q : α → σ → Prop} : Arrives failure F Q state ↔ F :=
  Iff.rfl

theorem arrives_bind {next : α → StateT σ Option β} {Q : β → σ → Prop} :
    Arrives (program >>= next) F Q state ↔
      Arrives program F (fun value after => Arrives (next value) F Q after) state := by
  unfold Arrives
  rw [StateT.run_bind]
  cases program.run state with
  | none => exact Iff.rfl
  | some final => exact Iff.rfl

@[simp]
theorem arrives_get {Q : σ → σ → Prop} :
    Arrives (get : StateT σ Option σ) F Q state ↔ Q state state :=
  Iff.rfl

@[simp]
theorem arrives_modify {change : σ → σ} {Q : PUnit → σ → Prop} :
    Arrives (modify change : StateT σ Option PUnit) F Q state ↔ Q ⟨⟩ (change state) :=
  Iff.rfl

@[simp]
theorem arrives_set {after : σ} {Q : PUnit → σ → Prop} :
    Arrives (set after : StateT σ Option PUnit) F Q state ↔ Q ⟨⟩ after :=
  Iff.rfl

/-- What holds of a program that does not give up. -/
theorem Arrives.of_some {Q : α → σ → Prop} {value : α} {after : σ}
    (arrives : Arrives program F Q state) (run : program.run state = some (value, after)) :
    Q value after := by
  unfold Arrives at arrives
  rw [run] at arrives
  exact arrives

/-- A program that has no reason to give up arrives. -/
theorem Arrives.exists_some {Q : α → σ → Prop} (arrives : Arrives program F Q state)
    (never : ¬ F) : ∃ value after, program.run state = some (value, after) ∧ Q value after := by
  unfold Arrives at arrives
  cases run : program.run state with
  | none =>
      rw [run] at arrives
      exact absurd arrives never
  | some final =>
      rw [run] at arrives
      exact ⟨final.1, final.2, rfl, arrives⟩

/-! ## Loops -/

/-- Repeat a step until it leaves with a value; it gives up when the rounds run
out. -/
def loop {ι : Type} (step : ι → StateT σ Option (ι ⊕ α)) : Nat → ι → StateT σ Option α
  | 0, _ => failure
  | rounds + 1, i => do
      match ← step i with
      | .inl next => loop step rounds next
      | .inr value => return value

/-- The rule for loops: `I` holds before every round, and a round that goes on
leaves less to do. -/
theorem arrives_loop {ι : Type} {step : ι → StateT σ Option (ι ⊕ α)} {Q : α → σ → Prop}
    {rounds : Nat} {i : ι} (I : ι → σ → Prop) (todo : ι → Nat)
    (round : ∀ i before, I i before → Arrives (step i) F
      (fun next after => match next with
        | .inl j => I j after ∧ todo j < todo i
        | .inr value => Q value after) before)
    (start : I i state) (enough : todo i < rounds) : Arrives (loop step rounds i) F Q state := by
  induction rounds generalizing i state with
  | zero => exact absurd enough (Nat.not_lt_zero _)
  | succ rounds ih =>
      unfold loop
      rw [arrives_bind]
      apply (round i state start).mono
      intro next after goes
      cases next with
      | inl j => exact ih goes.1 (by omega)
      | inr value => exact goes

/-- `for (i = 0; i < bound; i++)` on a 64-bit counter. -/
def forBelow (rounds : Nat) (bound : BitVec 64) (body : BitVec 64 → StateT σ Option Unit) :
    StateT σ Option Unit :=
  loop (fun i => do
    if i < bound then
      body i
      return .inl (i + 1)
    else return .inr ()) rounds 0

/-- The rule for counting loops: `I` holds of the number of rounds done. -/
theorem arrives_forBelow {rounds : Nat} {bound : BitVec 64}
    {body : BitVec 64 → StateT σ Option Unit} {I : Nat → σ → Prop}
    (round : ∀ i < bound, ∀ before, I i.toNat before →
      Arrives (body i) F (fun _ => I (i.toNat + 1)) before)
    (start : I 0 state) (enough : bound.toNat < rounds) :
    Arrives (forBelow rounds bound body) F (fun _ => I bound.toNat) state := by
  unfold forBelow
  apply arrives_loop (fun i after => i ≤ bound ∧ I i.toNat after)
    (fun i => bound.toNat - i.toNat)
  · rintro i before ⟨within, holds⟩
    by_cases below : i < bound
    · rw [if_pos below, arrives_bind]
      apply (round i below before holds).mono
      intro _ after next
      have step : (i + 1).toNat = i.toNat + 1 := by bv_omega
      exact ⟨⟨by bv_omega, step ▸ next⟩, by bv_omega⟩
    · rw [if_neg below]
      have done : i = bound := by bv_omega
      exact done ▸ holds
  · exact ⟨by bv_omega, start⟩
  · change bound.toNat - 0 < rounds
    omega

end Arrives

/-! ## Counting loops -/

/-- `for (i = 0; i < n; i++)` over code that only changes the state. -/
def forRange (body : Nat → σ → σ) : Nat → σ → σ
  | 0, state => state
  | n + 1, state => body n (forRange body n state)

/-- What holds before a counting loop and is kept by every turn holds after it. -/
theorem forRange_keeps {body : Nat → σ → σ} {holds : Nat → σ → Prop} {n : Nat} {state : σ}
    (start : holds 0 state) (turn : ∀ i < n, ∀ state, holds i state → holds (i + 1) (body i state)) :
    holds n (forRange body n state) := by
  induction n with
  | zero => exact start
  | succ n ih =>
      exact turn n (Nat.lt_succ_self n) _ (ih fun i below => turn i (Nat.lt_succ_of_lt below))

/-- What every turn of a counting loop keeps holds after it. -/
theorem forRange_invariant {body : Nat → σ → σ} {I : σ → Prop} {n : Nat} {state : σ}
    (start : I state) (turn : ∀ i < n, ∀ state, I state → I (body i state)) :
    I (forRange body n state) :=
  @forRange_keeps _ _ (fun _ => I) _ _ start turn

end Notux.Store
