import Notux.Store.Ring
import Mathlib.Data.List.GetD
import Mathlib.Data.List.Perm.Basic

/-!
# The keyboard

`irqhandler(33)` decodes one scancode: `0xE0` makes it ignore the next one, both shift keys
set and clear one flag, and a character goes into a ring buffer of 64 bytes, which `kgetc`
and `kflush` empty.
-/

namespace Notux.Dev

open Notux.Store

abbrev Scancode := BitVec 8

/-- `char`. -/
abbrev Character := BitVec 8

abbrev KB_BUF_SIZE : Nat := 64

/-- A character constant. -/
def ch (c : Char) : Character := BitVec.ofNat 8 c.toNat

/-- `scancode_ascii`. -/
def scancodeAscii : List Character :=
  [0, 27, ch '1', ch '2', ch '3', ch '4', ch '5', ch '6', ch '7',
    ch '8', ch '9', ch '0', ch '-', ch '=', 8, 9, ch 'q',
    ch 'w', ch 'e', ch 'r', ch 't', ch 'y', ch 'u', ch 'i', ch 'o',
    ch 'p', ch '[', ch ']', 10, 0, ch 'a', ch 's', ch 'd',
    ch 'f', ch 'g', ch 'h', ch 'j', ch 'k', ch 'l', ch ';', 0x27,
    0x60, 0, 0x5C, ch 'z', ch 'x', ch 'c', ch 'v', ch 'b', ch 'n',
    ch 'm', ch ',', ch '.', ch '/', 0, ch '*', 0, ch ' ']

/-- The cases of the `switch` on a character typed with shift. -/
def shiftCases : List (Character × Character) :=
  [(ch '1', ch '!'), (ch '2', ch '@'), (ch '3', ch '#'), (ch '4', ch '$'), (ch '5', ch '%'),
    (ch '6', ch '^'), (ch '7', ch '&'), (ch '8', ch '*'), (ch '9', ch '('), (ch '0', ch ')'),
    (ch '-', ch '_'), (ch '=', ch '+'), (ch '[', 0x7B), (ch ']', 0x7D), (ch ';', ch ':'),
    (0x27, 0x22), (0x60, ch '~'), (0x5C, ch '|'), (ch ',', ch '<'), (ch '.', ch '>'),
    (ch '/', ch '?')]

/-- The shifted form of a character. -/
def shifted (c : Character) : Character :=
  if ch 'a' ≤ c ∧ c ≤ ch 'z' then c - ch 'a' + ch 'A' else (shiftCases.lookup c).getD c

/-- The static variables of `keyboard.c`. -/
structure Keyboard where
  kbBuf : Nat → Character
  kbHead : Nat
  kbTail : Nat
  e0Prefix : Bool
  shiftPressed : Bool

namespace Keyboard

/-- The keyboard at boot. -/
def boot : Keyboard := ⟨fun _ => 0, 0, 0, false, false⟩

/-- The character that a scancode is decoded to, when it is neither a prefix nor a shift
key. -/
def translate (shift : Bool) (scancode : Scancode) : Option Character :=
  if scancode &&& 0x80 = 0 then
    if scancode.toNat < scancodeAscii.length then
      let c := scancodeAscii.getD scancode.toNat 0
      if c ≠ 0 then some (if shift then shifted c else c) else none
    else none
  else none

/-- What `irqhandler` makes of a scancode. -/
def decode (scancode : Scancode) (kb : Keyboard) : Option Character × Keyboard :=
  if scancode = 0xE0 then (none, { kb with e0Prefix := true })
  else if kb.e0Prefix then (none, { kb with e0Prefix := false })
  else if scancode = 0x2A then (none, { kb with shiftPressed := true })
  else if scancode = 0xAA then (none, { kb with shiftPressed := false })
  else if scancode = 0x36 then (none, { kb with shiftPressed := true })
  else if scancode = 0xB6 then (none, { kb with shiftPressed := false })
  else (translate kb.shiftPressed scancode, kb)

/-- The index after `kb_head`. -/
def next (kb : Keyboard) : Nat := (kb.kbHead + 1) % KB_BUF_SIZE

/-- Put a character in the buffer if there is room. -/
def enqueue (c : Character) (kb : Keyboard) : Keyboard :=
  if kb.next ≠ kb.kbTail then
    { kb with kbBuf := assign kb.kbBuf kb.kbHead c, kbHead := kb.next }
  else kb

/-- `irqhandler(33)` with the scancode it reads from the port. -/
def irqhandler (scancode : Scancode) (kb : Keyboard) : Keyboard :=
  match kb.decode scancode with
  | (some c, kb) => kb.enqueue c
  | (none, kb) => kb

/-- `kgetc`. -/
def kgetc (kb : Keyboard) : Character × Keyboard :=
  if kb.kbHead = kb.kbTail then (0, kb)
  else (kb.kbBuf kb.kbTail, { kb with kbTail := (kb.kbTail + 1) % KB_BUF_SIZE })

/-- `kflush`. -/
def kflush (kb : Keyboard) : Keyboard := { kb with kbTail := kb.kbHead }

end Keyboard

/-- What happens to the keyboard. -/
inductive KeyEvent where
  | irq (scancode : Scancode)
  | kgetc
  | kflush

/-! ## What a queue of characters keeps track of -/

/-- The characters that have arrived, and the numbers of those that have been returned,
dropped or flushed and of those that wait. -/
structure Arrivals where
  arrived : List Character
  returned : List Nat
  dropped : List Nat
  flushed : List Nat
  unread : List Nat

namespace Arrivals

/-- Nothing has arrived. -/
def none : Arrivals := ⟨[], [], [], [], []⟩

/-- The character with a number. -/
def character (arrivals : Arrivals) (number : Nat) : Character := arrivals.arrived.getD number 0

/-- A character arrives: it waits unless 63 are waiting. -/
def arrive (arrivals : Arrivals) (c : Character) : Arrivals :=
  if arrivals.unread.length = 63 then
    { arrivals with
      arrived := arrivals.arrived ++ [c], dropped := arrivals.dropped ++ [arrivals.arrived.length] }
  else
    { arrivals with
      arrived := arrivals.arrived ++ [c], unread := arrivals.unread ++ [arrivals.arrived.length] }

/-- The first character that waits is returned. -/
def get (arrivals : Arrivals) : Arrivals :=
  match arrivals.unread with
  | [] => arrivals
  | number :: unread => { arrivals with returned := arrivals.returned ++ [number], unread := unread }

/-- What waits is flushed. -/
def flush (arrivals : Arrivals) : Arrivals :=
  { arrivals with flushed := arrivals.flushed ++ arrivals.unread, unread := [] }

end Arrivals

/-- A keyboard and what has happened to it: the scancodes, the last one first, what became of
the characters, and what `kgetc` has answered. -/
structure Session where
  kb : Keyboard
  history : List Scancode
  arrivals : Arrivals
  answers : List Character

namespace Session

/-- A session starts at boot. -/
def boot : Session := ⟨Keyboard.boot, [], Arrivals.none, []⟩

/-- One event. -/
def step (session : Session) : KeyEvent → Session
  | .irq scancode =>
      { session with
        kb := session.kb.irqhandler scancode
        history := scancode :: session.history
        arrivals := match (session.kb.decode scancode).1 with
          | some c => session.arrivals.arrive c
          | none => session.arrivals }
  | .kgetc =>
      { session with
        kb := session.kb.kgetc.2
        arrivals := session.arrivals.get
        answers := session.answers ++ [session.kb.kgetc.1] }
  | .kflush => { session with kb := session.kb.kflush, arrivals := session.arrivals.flush }

/-- Events since boot. -/
def run (events : List KeyEvent) : Session := events.foldl step boot

end Session

/-! ## Decoding -/

namespace Keyboard

variable {kb : Keyboard} {scancode : Scancode} {c : Character}

/-- Decoding touches nothing of the buffer. -/
theorem decode_buffer (scancode : Scancode) (kb : Keyboard) :
    (kb.decode scancode).2.kbBuf = kb.kbBuf ∧ (kb.decode scancode).2.kbHead = kb.kbHead ∧
      (kb.decode scancode).2.kbTail = kb.kbTail := by
  unfold decode
  split_ifs <;> exact ⟨rfl, rfl, rfl⟩

/-- No character of the table is shifted to `0`. -/
theorem shifted_ne_zero : ∀ c ∈ scancodeAscii, c ≠ 0 → shifted c ≠ 0 := by decide

/-- What a scancode is translated to. -/
theorem translate_eq_some {shift : Bool} (translated : translate shift scancode = some c) :
    scancodeAscii.getD scancode.toNat 0 ≠ 0 ∧ scancodeAscii.getD scancode.toNat 0 ∈ scancodeAscii ∧
      c = if shift then shifted (scancodeAscii.getD scancode.toNat 0)
        else scancodeAscii.getD scancode.toNat 0 := by
  unfold translate at translated
  split at translated
  · split at translated
    · rename_i known
      dsimp only at translated
      split at translated
      · rename_i real
        refine ⟨real, ?_, (Option.some.inj translated).symm⟩
        rw [List.getD_eq_getElem _ _ known]
        exact List.getElem_mem known
      · cases translated
    · cases translated
  · cases translated

theorem decode_ne_zero (decoded : (kb.decode scancode).1 = some c) : c ≠ 0 := by
  unfold decode at decoded
  split_ifs at decoded
  obtain ⟨real, member, rfl⟩ := translate_eq_some decoded
  split
  · exact shifted_ne_zero _ member real
  · exact real

end Keyboard

/-! ## The buffer -/

namespace Arrivals

variable {arrivals : Arrivals} {c : Character}

/-- The characters that wait. -/
def waiting (arrivals : Arrivals) : List Character := arrivals.unread.map arrivals.character

/-- Every character that arrived is in one place, and those that come out or wait are in
order. -/
structure Accounted (arrivals : Arrivals) : Prop where
  real : ∀ c ∈ arrivals.arrived, c ≠ 0
  ordered : (arrivals.returned ++ arrivals.unread).Pairwise (· < ·)
  places : (arrivals.returned ++ arrivals.dropped ++ arrivals.flushed ++ arrivals.unread).Perm
    (List.range arrivals.arrived.length)

/-- The numbers that have been given to characters. -/
theorem Accounted.number_lt (accounted : Accounted arrivals) {number : Nat}
    (member : number ∈ arrivals.returned ++ arrivals.unread) :
    number < arrivals.arrived.length := by
  apply List.mem_range.mp
  apply accounted.places.subset
  simp only [List.mem_append] at member ⊢
  tauto

/-- The numbers of earlier characters keep their characters. -/
theorem character_append {number : Nat} (old : number < arrivals.arrived.length)
    (after : Arrivals) (arrived : after.arrived = arrivals.arrived ++ [c]) :
    after.character number = arrivals.character number := by
  unfold character
  rw [arrived, List.getD_append _ _ _ _ old]

theorem character_new {after : Arrivals} (arrived : after.arrived = arrivals.arrived ++ [c]) :
    after.character arrivals.arrived.length = c := by
  unfold character
  rw [arrived, List.getD_append_right _ _ _ _ (le_refl _), Nat.sub_self]
  rfl

theorem map_character_append {numbers : List Nat} {after : Arrivals}
    (old : ∀ number ∈ numbers, number < arrivals.arrived.length)
    (arrived : after.arrived = arrivals.arrived ++ [c]) :
    numbers.map after.character = numbers.map arrivals.character :=
  List.map_congr_left fun number member => character_append (old number member) after arrived

/-- A number that is not given yet comes after all that are. -/
theorem Accounted.ordered_new (accounted : Accounted arrivals) :
    (arrivals.returned ++ (arrivals.unread ++ [arrivals.arrived.length])).Pairwise (· < ·) := by
  rw [← List.append_assoc, List.pairwise_append]
  refine ⟨accounted.ordered, List.pairwise_singleton _ _, ?_⟩
  intro number member last same
  rw [List.mem_singleton.mp same]
  exact accounted.number_lt member

theorem Accounted.real_new (accounted : Accounted arrivals) (real : c ≠ 0) :
    ∀ other ∈ arrivals.arrived ++ [c], other ≠ 0 := by
  intro other member
  rcases List.mem_append.mp member with old | new
  · exact accounted.real other old
  · rwa [List.mem_singleton.mp new]

/-- A character that arrives is dropped or waits. -/
theorem Accounted.arrive (accounted : Accounted arrivals) (real : c ≠ 0) :
    Accounted (arrivals.arrive c) := by
  have places := accounted.places.append_right [arrivals.arrived.length]
  unfold Arrivals.arrive
  split
  · refine ⟨accounted.real_new real, accounted.ordered, ?_⟩
    dsimp only
    rw [List.length_append, List.length_singleton, List.range_succ]
    refine List.Perm.trans (List.perm_iff_count.mpr fun number => ?_) places
    simp only [List.count_append]
    omega
  · refine ⟨accounted.real_new real, accounted.ordered_new, ?_⟩
    dsimp only
    rw [List.length_append, List.length_singleton, List.range_succ, ← List.append_assoc]
    exact places

/-- The character that `kgetc` returns goes out first. -/
theorem Accounted.get (accounted : Accounted arrivals) : Accounted arrivals.get := by
  unfold Arrivals.get
  split
  · exact accounted
  · rename_i number unread waiting
    have ordered := accounted.ordered
    have places := accounted.places
    rw [waiting] at ordered places
    refine ⟨accounted.real, ?_, ?_⟩
    · rwa [List.append_assoc, List.singleton_append]
    · refine List.Perm.trans (List.perm_iff_count.mpr fun other => ?_) places
      rw [← List.singleton_append (l := unread)]
      simp only [List.count_append]
      omega

/-- What waits goes nowhere else. -/
theorem Accounted.flush (accounted : Accounted arrivals) : Accounted arrivals.flush := by
  refine ⟨accounted.real, ?_, ?_⟩
  · unfold Arrivals.flush
    rw [List.append_nil]
    exact accounted.ordered.sublist (List.sublist_append_left _ _)
  · unfold Arrivals.flush
    rw [List.append_nil, ← List.append_assoc]
    exact accounted.places

end Arrivals

namespace Keyboard

variable {kb : Keyboard} {xs : List Character}

/-- The buffer of a keyboard holds characters. -/
def Holds (kb : Keyboard) (xs : List Character) : Prop :=
  Queues KB_BUF_SIZE kb.kbBuf kb.kbHead kb.kbTail xs

/-- There is room for 63 characters. -/
theorem Holds.enqueue (holds : kb.Holds xs) (c : Character) :
    (kb.enqueue c).Holds (if xs.length = 63 then xs else xs ++ [c]) := by
  have full : kb.next = kb.kbTail ↔ xs.length = 63 := holds.full_iff.trans Nat.succ_inj
  unfold Keyboard.enqueue
  split
  · rename_i room
    rw [if_neg (mt full.mpr room)]
    exact holds.push c room
  · rename_i none
    rw [if_pos (full.mp (not_not.mp none))]
    exact holds

/-- `kgetc` returns the oldest character, and `0` when there is none. -/
theorem Holds.kgetc (holds : kb.Holds xs) :
    kb.kgetc.1 = xs.headD 0 ∧ kb.kgetc.2.Holds xs.tail := by
  unfold Keyboard.kgetc
  cases xs with
  | nil =>
      rw [if_pos (holds.empty_iff.mpr rfl)]
      exact ⟨rfl, holds⟩
  | cons c xs =>
      rw [if_neg (mt holds.empty_iff.mp (List.cons_ne_nil c xs))]
      exact Queues.pop holds

theorem Holds.kflush (holds : kb.Holds xs) : kb.kflush.Holds [] := Queues.empty holds.head_lt

theorem Holds.decode (holds : kb.Holds xs) (scancode : Scancode) :
    (kb.decode scancode).2.Holds xs := by
  obtain ⟨buf, head, tail⟩ := decode_buffer scancode kb
  unfold Holds
  rwa [buf, head, tail]

end Keyboard

/-- The buffer holds what waits, and `kgetc` has answered what was returned. -/
structure Session.Queued (session : Session) : Prop where
  holds : session.kb.Holds session.arrivals.waiting
  answered : session.answers.filter (· ≠ 0) =
    session.arrivals.returned.map session.arrivals.character
  accounted : session.arrivals.Accounted

namespace Arrivals

/-- Characters wait in the order of their arrival. -/
theorem Accounted.waiting_arrive (accounted : Accounted arrivals) (c : Character) :
    (arrivals.arrive c).waiting =
      if arrivals.unread.length = 63 then arrivals.waiting else arrivals.waiting ++ [c] := by
  have old : ∀ number ∈ arrivals.unread, number < arrivals.arrived.length :=
    fun number member => accounted.number_lt (List.mem_append_right _ member)
  unfold Arrivals.waiting Arrivals.arrive
  split
  · exact map_character_append old rfl
  · rw [List.map_append, map_character_append old rfl, List.map_singleton,
      character_new rfl]

theorem Accounted.returned_arrive (accounted : Accounted arrivals) (c : Character) :
    (arrivals.arrive c).returned.map (arrivals.arrive c).character =
      arrivals.returned.map arrivals.character := by
  have old : ∀ number ∈ arrivals.returned, number < arrivals.arrived.length :=
    fun number member => accounted.number_lt (List.mem_append_left _ member)
  unfold Arrivals.arrive
  split <;> exact map_character_append old rfl

/-- The characters that wait are not `0`. -/
theorem Accounted.waiting_ne_zero (accounted : Accounted arrivals) :
    ∀ c ∈ arrivals.waiting, c ≠ 0 := by
  intro c member
  obtain ⟨number, unread, rfl⟩ := List.mem_map.mp member
  have old := accounted.number_lt (List.mem_append_right _ unread)
  unfold character
  rw [List.getD_eq_getElem _ _ old]
  exact accounted.real _ (List.getElem_mem old)

theorem waiting_get (arrivals : Arrivals) : arrivals.get.waiting = arrivals.waiting.tail := by
  unfold Arrivals.get
  split
  · rename_i none
    unfold waiting
    rw [none]
    rfl
  · rename_i some
    unfold waiting
    rw [some]
    rfl

/-- What goes out is returned. -/
theorem Accounted.returned_get (accounted : Accounted arrivals) :
    arrivals.returned.map arrivals.character ++ [arrivals.waiting.headD 0].filter (· ≠ 0) =
      arrivals.get.returned.map arrivals.get.character := by
  have real := accounted.waiting_ne_zero
  unfold Arrivals.get
  split
  · rename_i none
    unfold waiting
    rw [none]
    exact List.append_nil _
  · rename_i number unread some
    have first : arrivals.character number ≠ 0 := by
      apply real
      unfold waiting
      rw [some]
      exact List.mem_cons_self
    have kept : [arrivals.character number].filter (· ≠ 0) = [arrivals.character number] :=
      List.filter_eq_self.mpr fun c member => decide_eq_true (List.mem_singleton.mp member ▸ first)
    unfold waiting
    rw [some, List.map_cons, List.headD_cons, kept, List.map_append]
    rfl

end Arrivals

namespace Session

variable {session : Session}

theorem boot_queued : Queued boot :=
  ⟨Queues.empty (by decide), rfl, ⟨fun _ member => absurd member List.not_mem_nil,
    List.Pairwise.nil, List.Perm.refl _⟩⟩

/-- A decoded character waits unless the buffer is full. -/
theorem Queued.irq (queued : Queued session) (scancode : Scancode) :
    Queued (session.step (.irq scancode)) := by
  obtain ⟨holds, answered, accounted⟩ := queued
  have kept := holds.decode scancode
  have real := @Keyboard.decode_ne_zero session.kb scancode
  unfold Session.step Keyboard.irqhandler
  dsimp only
  generalize session.kb.decode scancode = decoded at kept real ⊢
  rcases decoded with ⟨_ | c, kb⟩
  · exact ⟨kept, answered, accounted⟩
  · refine ⟨?_, ?_, accounted.arrive (real rfl)⟩
    · dsimp only
      rw [accounted.waiting_arrive, ← List.length_map session.arrivals.character]
      exact kept.enqueue c
    · dsimp only
      rwa [accounted.returned_arrive]

/-- `kgetc` answers with the first character that waits. -/
theorem Queued.kgetc (queued : Queued session) : Queued (session.step .kgetc) := by
  obtain ⟨holds, answered, accounted⟩ := queued
  obtain ⟨answer, kept⟩ := holds.kgetc
  refine ⟨?_, ?_, accounted.get⟩
  · unfold Session.step
    dsimp only
    rwa [Arrivals.waiting_get]
  · unfold Session.step
    dsimp only
    rw [answer, List.filter_append, answered]
    exact accounted.returned_get

theorem Queued.kflush (queued : Queued session) : Queued (session.step .kflush) :=
  ⟨queued.holds.kflush, queued.answered, queued.accounted.flush⟩

/-- Every event keeps the books. -/
theorem Queued.step (queued : Queued session) (event : KeyEvent) :
    Queued (session.step event) := by
  cases event with
  | irq scancode => exact queued.irq scancode
  | kgetc => exact queued.kgetc
  | kflush => exact queued.kflush

/-- What every event keeps holds in every session since boot. -/
theorem run_invariant {holds : Session → Prop} (start : holds boot)
    (keeps : ∀ session event, holds session → holds (session.step event)) (events : List KeyEvent) :
    holds (run events) := by
  have from_any : ∀ session, holds session → holds (events.foldl step session) := by
    induction events with
    | nil => exact fun _ known => known
    | cons event events ih => exact fun session known => ih _ (keeps session event known)
  exact from_any boot start

/-- The keyboard buffer is a queue of at most 63 characters.  `kgetc` returns the characters
that have arrived in their order and none twice; the others were dropped when 63 were
waiting, or flushed, or wait. -/
theorem keyboard_fifo (events : List KeyEvent) :
    (run events).kb.kbHead < 64 ∧ (run events).kb.kbTail < 64 ∧
      (run events).answers.filter (· ≠ 0) =
        (run events).arrivals.returned.map (run events).arrivals.character ∧
      (run events).arrivals.Accounted ∧
      ((run events).kb.kgetc.1 = 0 ↔ (run events).arrivals.unread = []) := by
  have queued := run_invariant boot_queued (fun _ event queued => queued.step event) events
  obtain ⟨holds, answered, accounted⟩ := queued
  refine ⟨holds.head_lt, holds.begins, answered, accounted, ?_⟩
  have real := accounted.waiting_ne_zero
  rw [holds.kgetc.1]
  unfold Arrivals.waiting at real ⊢
  cases unread : (run events).arrivals.unread with
  | nil => exact ⟨fun _ => rfl, fun _ => rfl⟩
  | cons number rest =>
      rw [unread] at real
      constructor
      · intro zero
        exact absurd zero (real _ List.mem_cons_self)
      · intro none
        cases none

end Session

end Notux.Dev
