import Notux.Dev.Keyboard

/-!
# The shift keys

Both shift keys set and clear one flag, so releasing one of them ends the shift even while
the other one is held.  Otherwise the characters follow the keys.
-/

namespace Notux.Dev

open Notux.Store

/-! ## Two keys -/

/-- The scancodes that neither are nor follow a prefix `0xE0`; the last one comes first, here
as in the history. -/
def unprefixed : List Scancode → List Scancode
  | [] => []
  | code :: older =>
      if code = 0xE0 ∨ older.head? = some 0xE0 then unprefixed older else code :: unprefixed older

/-- A key has been pressed and not yet released. -/
def Held (press release : Scancode) (codes : List Scancode) : Prop :=
  codes.find? (fun code => code = press ∨ code = release) = some press

/-- One of the shift keys is held. -/
def ShiftHeld (history : List Scancode) : Prop :=
  Held 0x2A 0xAA (unprefixed history) ∨ Held 0x36 0xB6 (unprefixed history)

instance (history : List Scancode) : Decidable (ShiftHeld history) := by
  unfold ShiftHeld Held
  infer_instance

/-- The last scancode of a shift key. -/
def lastShift (history : List Scancode) : Option Scancode :=
  (unprefixed history).find? fun code => code = 0x2A ∨ code = 0xAA ∨ code = 0x36 ∨ code = 0xB6

/-- One shift key is held, and the other one was released last. -/
def OneReleased (history : List Scancode) : Prop :=
  ShiftHeld history ∧ (lastShift history = some 0xAA ∨ lastShift history = some 0xB6)

/-- The key of a scancode types the same with and without shift, or types nothing. -/
def Caseless (scancode : Scancode) : Prop :=
  shifted (scancodeAscii.getD scancode.toNat 0) = scancodeAscii.getD scancode.toNat 0

namespace Session

variable {session : Session}

/-- The scancode puts a character in the buffer. -/
def Puts (session : Session) (scancode : Scancode) : Prop :=
  (session.kb.irqhandler scancode).kbHead ≠ session.kb.kbHead

/-- The character that a scancode puts in the buffer is shifted exactly if a shift key is
held. -/
def FollowsShift (session : Session) (scancode : Scancode) : Prop :=
  session.Puts scancode →
    (session.kb.irqhandler scancode).kbBuf session.kb.kbHead =
      if ShiftHeld (scancode :: session.history)
      then shifted (scancodeAscii.getD scancode.toNat 0) else scancodeAscii.getD scancode.toNat 0

/-- A character with a shifted form comes into a buffer with room while one shift key is held
and the other one was released last. -/
def LosesShift (session : Session) (scancode : Scancode) : Prop :=
  session.history.head? ≠ some 0xE0 ∧ session.kb.next ≠ session.kb.kbTail ∧
    OneReleased session.history ∧ ¬ Caseless scancode

end Session

/-! ## One flag -/

/-- A search finds the same in fewer codes, as long as it is among them. -/
theorem find?_narrow {codes : List Scancode} {wide narrow : Scancode → Bool} {code : Scancode}
    (found : codes.find? wide = some code) (still : narrow code)
    (fewer : ∀ other, narrow other → wide other) : codes.find? narrow = some code := by
  induction codes with
  | nil => cases found
  | cons first codes ih =>
      rw [List.find?_cons] at found ⊢
      cases isWide : wide first with
      | true =>
          rw [isWide] at found
          cases found
          rw [still]
      | false =>
          rw [isWide] at found
          cases isNarrow : narrow first with
          | true => exact absurd (fewer first isNarrow) (ne_true_of_eq_false isWide)
          | false => exact ih found

variable {history : List Scancode}

/-- The key that was pressed last is held. -/
theorem shiftHeld_of_pressed (pressed : lastShift history = some 0x2A ∨
    lastShift history = some 0x36) : ShiftHeld history := by
  rcases pressed with left | right
  · apply Or.inl (find?_narrow left rfl _)
    intro other isKey
    simp only [decide_eq_true_eq] at isKey ⊢
    tauto
  · apply Or.inr (find?_narrow right rfl _)
    intro other isKey
    simp only [decide_eq_true_eq] at isKey ⊢
    tauto

/-- A key that is held was pressed, or the other one has changed since. -/
theorem lastShift_of_held (held : ShiftHeld history) :
    (lastShift history = some 0x2A ∨ lastShift history = some 0x36) ∨ OneReleased history := by
  have some : ∃ code, lastShift history = some code := by
    apply Option.isSome_iff_exists.mp
    apply List.find?_isSome.mpr
    rcases held with left | right
    · exact ⟨0x2A, List.mem_of_find?_eq_some left, rfl⟩
    · exact ⟨0x36, List.mem_of_find?_eq_some right, rfl⟩
  obtain ⟨code, last⟩ := some
  have isShift := List.find?_some last
  simp only [decide_eq_true_eq] at isShift
  rcases isShift with rfl | rfl | rfl | rfl
  · exact Or.inl (Or.inl last)
  · exact Or.inr ⟨held, Or.inl last⟩
  · exact Or.inl (Or.inr last)
  · exact Or.inr ⟨held, Or.inr last⟩

/-- The flags say what the last scancodes were. -/
structure Session.Tracks (session : Session) : Prop where
  prefixed : session.kb.e0Prefix = true ↔ session.history.head? = some 0xE0
  shift : session.kb.shiftPressed = true ↔
    lastShift session.history = some 0x2A ∨ lastShift session.history = some 0x36

/-- A code that is a prefix or follows one does not change the last shift key. -/
theorem lastShift_skip {code : Scancode} (skipped : code = 0xE0 ∨ history.head? = some 0xE0) :
    lastShift (code :: history) = lastShift history := by
  unfold lastShift
  rw [unprefixed, if_pos skipped]

theorem lastShift_shift {code : Scancode} (used : ¬ (code = 0xE0 ∨ history.head? = some 0xE0))
    (isShift : code = 0x2A ∨ code = 0xAA ∨ code = 0x36 ∨ code = 0xB6) :
    lastShift (code :: history) = some code := by
  unfold lastShift
  rw [unprefixed, if_neg used]
  exact List.find?_cons_of_pos (decide_eq_true isShift)

theorem lastShift_other {code : Scancode}
    (other : ¬ (code = 0x2A ∨ code = 0xAA ∨ code = 0x36 ∨ code = 0xB6)) :
    lastShift (code :: history) = lastShift history := by
  unfold lastShift
  rw [unprefixed]
  split
  · rfl
  · exact List.find?_cons_of_neg (by rwa [decide_eq_true_eq])

/-- Only the codes of the shift keys change which one is held. -/
theorem shiftHeld_other {code : Scancode}
    (other : ¬ (code = 0x2A ∨ code = 0xAA ∨ code = 0x36 ∨ code = 0xB6)) :
    ShiftHeld (code :: history) ↔ ShiftHeld history := by
  unfold ShiftHeld Held
  rw [unprefixed]
  split
  · rfl
  · rw [List.find?_cons_of_neg, List.find?_cons_of_neg]
    · simp only [decide_eq_true_eq]
      tauto
    · simp only [decide_eq_true_eq]
      tauto

namespace Keyboard

variable {kb : Keyboard} {scancode : Scancode} {c : Character}

/-- Putting a character in the buffer changes no flag. -/
theorem irqhandler_flags (scancode : Scancode) (kb : Keyboard) :
    (kb.irqhandler scancode).e0Prefix = (kb.decode scancode).2.e0Prefix ∧
      (kb.irqhandler scancode).shiftPressed = (kb.decode scancode).2.shiftPressed := by
  unfold irqhandler
  rcases kb.decode scancode with ⟨_ | c, kb⟩
  · exact ⟨rfl, rfl⟩
  · dsimp only
    unfold enqueue
    split <;> exact ⟨rfl, rfl⟩

/-- A scancode that is decoded to a character. -/
theorem decode_eq_some (decoded : (kb.decode scancode).1 = some c) :
    scancode ≠ 0xE0 ∧ kb.e0Prefix = false ∧
      ¬ (scancode = 0x2A ∨ scancode = 0xAA ∨ scancode = 0x36 ∨ scancode = 0xB6) ∧
      translate kb.shiftPressed scancode = some c ∧ kb.decode scancode = (some c, kb) := by
  unfold decode at decoded
  split_ifs at decoded with e0 after leftDown leftUp rightDown rightUp
  refine ⟨e0, Bool.eq_false_iff.mpr after, by tauto, decoded, ?_⟩
  unfold decode
  rw [if_neg e0, if_neg after, if_neg leftDown, if_neg leftUp, if_neg rightDown, if_neg rightUp]
  exact Prod.ext decoded rfl

end Keyboard

namespace Session

variable {session : Session} {scancode : Scancode}

theorem boot_tracks : Tracks boot := by
  constructor
  · decide
  · decide

/-- A scancode sets the flags to what the last scancodes are. -/
theorem Tracks.irq (tracks : Tracks session) (scancode : Scancode) :
    Tracks (session.step (.irq scancode)) := by
  obtain ⟨prefixed, shift⟩ := tracks
  obtain ⟨e0Flag, shiftFlag⟩ := Keyboard.irqhandler_flags scancode session.kb
  constructor
  · unfold step
    dsimp only
    rw [e0Flag, List.head?_cons, Option.some_inj]
    unfold Keyboard.decode
    split_ifs with e0 after
    · exact ⟨fun _ => e0, fun _ => rfl⟩
    · exact ⟨fun set => absurd set (by decide), fun same => absurd same e0⟩
    all_goals exact ⟨fun set => absurd set after, fun same => absurd same e0⟩
  · unfold step
    dsimp only
    rw [shiftFlag]
    unfold Keyboard.decode
    split_ifs with e0 after leftDown leftUp rightDown rightUp
    · rw [lastShift_skip (Or.inl e0)]
      exact shift
    · rw [lastShift_skip (Or.inr (prefixed.mp after))]
      exact shift
    · have used := not_or.mpr ⟨e0, mt prefixed.mpr after⟩
      rw [lastShift_shift used (Or.inl leftDown), leftDown]
      exact ⟨fun _ => Or.inl rfl, fun _ => rfl⟩
    · have used := not_or.mpr ⟨e0, mt prefixed.mpr after⟩
      rw [lastShift_shift used (Or.inr (Or.inl leftUp)), leftUp]
      decide
    · have used := not_or.mpr ⟨e0, mt prefixed.mpr after⟩
      rw [lastShift_shift used (Or.inr (Or.inr (Or.inl rightDown))), rightDown]
      exact ⟨fun _ => Or.inr rfl, fun _ => rfl⟩
    · have used := not_or.mpr ⟨e0, mt prefixed.mpr after⟩
      rw [lastShift_shift used (Or.inr (Or.inr (Or.inr rightUp))), rightUp]
      decide
    · rw [lastShift_other (by tauto)]
      exact shift

theorem Tracks.step (tracks : Tracks session) (event : KeyEvent) :
    Tracks (session.step event) := by
  cases event with
  | irq scancode => exact tracks.irq scancode
  | kgetc =>
      have flags : session.kb.kgetc.2.e0Prefix = session.kb.e0Prefix ∧
          session.kb.kgetc.2.shiftPressed = session.kb.shiftPressed := by
        unfold Keyboard.kgetc
        split <;> exact ⟨rfl, rfl⟩
      exact ⟨flags.1 ▸ tracks.prefixed, flags.2 ▸ tracks.shift⟩
  | kflush => exact ⟨tracks.prefixed, tracks.shift⟩

/-- The flag is set exactly if a shift key is held and the other one was not released last. -/
theorem Tracks.shift_iff (tracks : Tracks session) (others : ¬ OneReleased session.history) :
    session.kb.shiftPressed = true ↔ ShiftHeld session.history := by
  constructor
  · intro set
    exact shiftHeld_of_pressed (tracks.shift.mp set)
  · intro held
    exact tracks.shift.mpr ((lastShift_of_held held).resolve_right others)

theorem Tracks.not_shift (tracks : Tracks session) (lost : OneReleased session.history) :
    session.kb.shiftPressed = false := by
  apply Bool.eq_false_iff.mpr
  intro set
  obtain ⟨held, last⟩ := lost
  have pressed := tracks.shift.mp set
  rcases last with last | last <;> rw [last] at pressed <;> revert pressed <;> decide

/-- A decoded character goes where the head is, if there is room. -/
theorem irqhandler_room {kb : Keyboard} {c : Character} (decoded : kb.decode scancode = (some c, kb))
    (room : kb.next ≠ kb.kbTail) :
    kb.irqhandler scancode = { kb with kbBuf := assign kb.kbBuf kb.kbHead c, kbHead := kb.next } := by
  unfold Keyboard.irqhandler
  rw [decoded]
  exact if_pos room

/-- Only a character that is decoded while there is room is put in the buffer. -/
theorem decoded_of_puts (puts : session.Puts scancode) :
    ∃ c, (session.kb.decode scancode).1 = some c ∧ session.kb.next ≠ session.kb.kbTail := by
  cases decoded : (session.kb.decode scancode).1 with
  | none =>
      refine absurd ?_ puts
      unfold Keyboard.irqhandler
      rw [show session.kb.decode scancode = (none, (session.kb.decode scancode).2) from
        Prod.ext decoded rfl]
      exact (Keyboard.decode_buffer scancode session.kb).2.1
  | some c =>
      obtain ⟨_, _, _, _, whole⟩ := Keyboard.decode_eq_some decoded
      refine ⟨c, rfl, fun full => absurd ?_ puts⟩
      unfold Keyboard.irqhandler Keyboard.enqueue
      rw [whole]
      dsimp only
      rw [if_neg (not_not.mpr full)]

theorem puts_of_decode {c : Character} (decoded : session.kb.decode scancode = (some c, session.kb))
    (room : session.kb.next ≠ session.kb.kbTail) : session.Puts scancode := by
  unfold Puts
  rw [irqhandler_room decoded room]
  have moves : session.kb.next ≠ session.kb.kbHead := by
    unfold Keyboard.next
    simp only [KB_BUF_SIZE]
    omega
  exact moves

/-- The codes of the table are those of pressed keys. -/
theorem table_low : ∀ code : Scancode, code.toNat < scancodeAscii.length → code &&& 0x80 = 0 := by
  decide

/-- A key with a shifted form is decoded unless it follows a prefix. -/
theorem Tracks.decode_cased (tracks : Tracks session) (cased : ¬ Caseless scancode)
    (plain : session.history.head? ≠ some 0xE0) :
    ∃ c, (session.kb.decode scancode).1 = some c := by
  have after : ¬ session.kb.e0Prefix = true := mt tracks.prefixed.mp plain
  have known : scancode.toNat < scancodeAscii.length := by
    by_contra beyond
    apply cased
    unfold Caseless
    rw [List.getD_eq_default _ _ (not_lt.mp beyond)]
    decide
  have real : scancodeAscii.getD scancode.toNat 0 ≠ 0 := by
    intro none
    apply cased
    unfold Caseless
    rw [none]
    decide
  have differs : ∀ code, (scancodeAscii.getD code.toNat 0 = 0) → scancode ≠ code := by
    rintro code none rfl
    exact real none
  unfold Keyboard.decode Keyboard.translate
  rw [if_neg (differs 0xE0 (by decide)), if_neg after, if_neg (differs 0x2A (by decide)),
    if_neg (differs 0xAA (by decide)), if_neg (differs 0x36 (by decide)),
    if_neg (differs 0xB6 (by decide)), if_pos (table_low _ known), if_pos known]
  exact ⟨_, if_pos real⟩

/-- The character follows the shift keys unless its step loses the shift. -/
theorem Tracks.follows_iff (tracks : Tracks session) (scancode : Scancode) :
    session.FollowsShift scancode ↔ ¬ session.LosesShift scancode := by
  constructor
  · rintro follows ⟨plain, room, lost, cased⟩
    obtain ⟨c, decoded⟩ := tracks.decode_cased cased plain
    obtain ⟨_, _, other, translated, whole⟩ := Keyboard.decode_eq_some decoded
    obtain ⟨_, _, value⟩ := Keyboard.translate_eq_some translated
    have typed := follows (puts_of_decode whole room)
    rw [irqhandler_room whole room, if_pos ((shiftHeld_other other).mpr lost.1)] at typed
    rw [tracks.not_shift lost] at value
    apply cased
    unfold Caseless
    rw [← typed]
    dsimp only
    rw [assign_self, value]
    rfl
  · intro kept puts
    obtain ⟨c, decoded, room⟩ := decoded_of_puts puts
    obtain ⟨_, after, other, translated, whole⟩ := Keyboard.decode_eq_some decoded
    obtain ⟨_, _, value⟩ := Keyboard.translate_eq_some translated
    rw [irqhandler_room whole room]
    dsimp only
    rw [assign_self, value, if_congr (shiftHeld_other other) rfl rfl]
    by_cases lost : OneReleased session.history
    · have plain : session.history.head? ≠ some 0xE0 := by
        intro prefixed
        rw [tracks.prefixed.mpr prefixed] at after
        cases after
      have caseless : Caseless scancode := by
        by_contra cased
        exact kept ⟨plain, room, lost, cased⟩
      rw [caseless, ite_self, ite_self]
    · exact if_congr (tracks.shift_iff lost) rfl rfl

/-- The shift state follows both keys in exactly the runs where no character with a shifted
form comes while one key is held and the other one was released last. -/
theorem shift_follows_iff (events : List KeyEvent) :
    (∀ before scancode after, events = before ++ .irq scancode :: after →
      (run before).FollowsShift scancode) ↔
    (∀ before scancode after, events = before ++ .irq scancode :: after →
      ¬ (run before).LosesShift scancode) := by
  have tracks := run_invariant boot_tracks fun _ event tracks => Tracks.step tracks event
  constructor
  · intro follows before scancode after same
    exact ((tracks before).follows_iff scancode).mp (follows before scancode after same)
  · intro kept before scancode after same
    exact ((tracks before).follows_iff scancode).mpr (kept before scancode after same)

/-- Both shift keys are pressed and the left one is released: `a` comes out small, although
the right one is still held. -/
theorem shift_lost : ¬ ∀ events : List KeyEvent, ∀ before scancode after,
    events = before ++ .irq scancode :: after → (run before).FollowsShift scancode := by
  intro follows
  have puts : (run [.irq 0x2A, .irq 0x36, .irq 0xAA]).Puts 0x1E := by
    unfold Puts
    decide
  have small := follows _ [.irq 0x2A, .irq 0x36, .irq 0xAA] 0x1E [] rfl puts
  revert small
  decide

end Session

end Notux.Dev
