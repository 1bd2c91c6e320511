import Notux.Store.Program

/-!
# Programs that carry a condition

Some conditions on the memory, such as which locks are held, change from one place of a
program to the next.  `Carries stops before program after` says that a program started
under `before` stops for good only for the reasons in `stops`, and otherwise returns
under `after`.  The rules follow the structure of the program.
-/

namespace Notux.Store.Prog

variable {K D E α β : Type}

/-- A program leads from one condition on the memory to another. -/
def Carries (stops : E → Prop) (before : K → Prop) (program : Prog K D E α)
    (after : α → K → Prop) : Prop :=
  ∀ world : World K D, before world.mem →
    program.wp (fun _ => True) (fun reason _ => stops reason)
      (fun value final => after value final.mem) world

/-- Every program meets the empty specification. -/
theorem wp_trivial (program : Prog K D E α) (world : World K D) :
    program.wp (fun _ => True) (fun _ _ => True) (fun _ _ => True) world := by
  induction program generalizing world with
  | ret value => trivial
  | halt reason => trivial
  | fetch next ih => exact ih _ _
  | put mem next ih => exact ih _
  | request blockno next ih => exact fun slot => ih _ _
  | look bp next ih => exact ih _ _
  | write bp contents next ih => exact ⟨trivial, ih _⟩

namespace Carries

variable {stops : E → Prop} {before : K → Prop} {program : Prog K D E α} {after : α → K → Prop}

theorem pure {value : α} (holds : ∀ mem, before mem → after value mem) :
    Carries stops before (Pure.pure value : Prog K D E α) after :=
  fun world start => holds world.mem start

theorem stop {reason : E} (allowed : stops reason) :
    Carries stops before (Store.stop reason : Prog K D E α) after :=
  fun _ _ => allowed

theorem bind {rest : α → Prog K D E β} {middle : α → K → Prop} {last : β → K → Prop}
    (first : Carries stops before program middle)
    (second : ∀ value, Carries stops (middle value) (rest value) last) :
    Carries stops before (program >>= rest) last := by
  intro world start
  rw [wp_bind]
  exact (first world start).mono fun value between holds => second value between holds

/-- A first part that keeps the condition. -/
theorem seq {rest : α → Prog K D E β} {last : β → K → Prop}
    (first : Carries stops before program fun _ => before)
    (second : ∀ value, Carries stops before (rest value) last) :
    Carries stops before (program >>= rest) last := first.bind second

/-- The memory that is read is the one the condition is about. -/
theorem fetch {rest : K → Prog K D E β} {last : β → K → Prop}
    (second : ∀ mem, before mem → Carries stops (fun now => now = mem) (rest mem) last) :
    Carries stops before (Store.getMem >>= rest) last :=
  fun world start => second world.mem start world rfl

theorem getMem : Carries stops before (Store.getMem : Prog K D E K) fun _ => before :=
  fun _ start => start

theorem bread {blockno : Nat} :
    Carries stops before (Store.bread blockno : Prog K D E Buf) fun _ => before :=
  fun _ start _ => start

theorem data {bp : Buf} : Carries stops before (Store.data bp : Prog K D E D) fun _ => before :=
  fun _ start => start

theorem logWrite {bp : Buf} {contents : D} :
    Carries stops before (Store.logWrite bp contents : Prog K D E Unit) fun _ => before :=
  fun _ start => ⟨trivial, start⟩

theorem modifyMem {change : K → K} {last : Unit → K → Prop}
    (changed : ∀ mem, before mem → last () (change mem)) :
    Carries stops before (Store.modifyMem change : Prog K D E Unit) last :=
  fun world start => changed world.mem start

theorem setMem {mem : K} {last : Unit → K → Prop} (holds : last () mem) :
    Carries stops before (Store.setMem mem : Prog K D E Unit) last :=
  fun _ _ => holds

theorem when {condition : Prop} [Decidable condition] {body : Prog K D E Unit}
    (kept : condition → Carries stops before body fun _ => before) :
    Carries stops before (Store.when condition body) fun _ => before := by
  unfold Store.when
  split
  · next holds => exact kept holds
  · exact pure fun _ => id

theorem forEach {ι : Type} {items : List ι} {body : ι → Prog K D E Unit}
    (kept : ∀ item ∈ items, Carries stops before (body item) fun _ => before) :
    Carries stops before (Store.forEach items body) fun _ => before := by
  induction items with
  | nil => exact pure fun _ => id
  | cons item rest ih =>
      unfold Store.forEach
      refine seq (kept item List.mem_cons_self) fun _ => ?_
      exact ih fun other member => kept other (List.mem_cons_of_mem _ member)

/-- The rule of consequence. -/
theorem conseq {before' : K → Prop} {after' : α → K → Prop}
    (carries : Carries stops before program after) (starts : ∀ mem, before' mem → before mem)
    (returns : ∀ value mem, after value mem → after' value mem) :
    Carries stops before' program after' :=
  fun world start => (carries world (starts _ start)).mono fun value final =>
    returns value final.mem

theorem mono {after' : α → K → Prop} (carries : Carries stops before program after)
    (returns : ∀ value mem, after value mem → after' value mem) :
    Carries stops before program after' :=
  carries.conseq (fun _ => id) returns

/-- What is carried goes with any other specification. -/
theorem along {P : (Nat → D) → Prop} {F : E → World K D → Prop} {Q : α → World K D → Prop}
    {world : World K D} (carries : Carries stops before program after)
    (spec : program.wp P F Q world) (start : before world.mem) :
    program.wp P (fun reason final => F reason final ∧ stops reason)
      (fun value final => Q value final ∧ after value final.mem) world :=
  (spec.and (carries world start)).conseq (fun _ both => both.1) (fun _ _ => id) fun _ _ => id

end Carries

end Notux.Store.Prog
