import Notux.Fs.Path
import Notux.Store.State

/-!
# The console

`kprint`, `kprintn` and `kprint_logo` draw into the framebuffer at the cursor, which wraps
at the right border and scrolls at the bottom.  No pixel routine checks bounds.  The cursor
is always on the screen, and so is everything that is drawn from it.
-/

namespace Notux.Dev

open Notux.Store Notux.Fs

abbrev Pixel := BitVec 32

abbrev SCREEN_W : Int := 800
abbrev SCREEN_H : Int := 600
abbrev CHAR_W : Int := 8

/-- `CHAR_H` in `console.c`. -/
abbrev CHAR_H : Int := 16

/-- `CHAR_H` in `font.h`, the one that `kprint_logo` sees. -/
abbrev FONT_CHAR_H : Int := 8

abbrev COLS : Int := SCREEN_W / CHAR_W
abbrev ROWS : Int := SCREEN_H / CHAR_H

/-- The size of the logo. -/
abbrev image_width : Nat := 32
abbrev image_height : Nat := 32

/-- The cursor and the framebuffer, with the indices that have been written since
`cinit`. -/
structure Console where
  cursorX : Int
  cursorY : Int
  fb : Int → Pixel
  written : List Int

namespace Console

/-- `fb[i] = color`. -/
def store (i : Int) (color : Pixel) (console : Console) : Console :=
  { console with fb := assign console.fb i color, written := i :: console.written }

/-- `putpixel`. -/
def putpixel (x y : Int) (color : Pixel) (console : Console) : Console :=
  console.store (y * SCREEN_W + x) color

/-- The glyph of a character: `char` is signed. -/
def glyphIndex (c : Byte) : Nat :=
  if 0x20 ≤ c.toInt ∧ c.toInt ≤ 0x7E then (c.toInt - 0x20).toNat else 0

/-- `drawchar`, with the rows of all glyphs. -/
def drawchar (font_8x8 : Nat → Nat → Byte) (x y : Int) (c : Byte) (color : Pixel) :
    Console → Console :=
  forRange (fun row => forRange (fun col console =>
    if font_8x8 (glyphIndex c) row &&& (0x80 >>> col) ≠ 0 then
      console.putpixel (x + col) (y + row) color
    else console) 8) 8

/-- A loop that writes one pixel in each turn. -/
def paint (index : Nat → Int) (color : Nat → Console → Pixel) : Nat → Console → Console :=
  forRange fun i console => console.store (index i) (color i console)

/-- `row_pixels` in `scroll`: the pixels of one row of characters. -/
def row_pixels : Nat := (SCREEN_W * CHAR_H).toNat

/-- The loops of `scroll`, which move `kept` pixels up and clear those up to `all`. -/
def scrollPixels (kept all : Nat) (console : Console) : Console :=
  let moved := paint (fun i => i) (fun i console => console.fb (i + row_pixels : Nat)) kept console
  let cleared := paint (fun i => (kept + i : Nat)) (fun _ _ => 0xFFFFFFFF) (all - kept) moved
  { cleared with cursorY := cleared.cursorY - 1 }

/-- `scroll`. -/
def scroll (console : Console) : Console :=
  console.scrollPixels (row_pixels * (ROWS - 1).toNat) (row_pixels * ROWS.toNat)

/-- `newline`. -/
def newline (console : Console) : Console :=
  let next := { console with cursorX := 0, cursorY := console.cursorY + 1 }
  if next.cursorY ≥ ROWS then next.scroll else next

/-- One turn of the loops of `kprint` and `kprintn`. -/
def printChar (font_8x8 : Nat → Nat → Byte) (color : Pixel) (c : Byte) (console : Console) :
    Console :=
  if c = 0x0A then console.newline
  else
    let drawn := drawchar font_8x8 (console.cursorX * CHAR_W) (console.cursorY * CHAR_H) c color
      console
    let next := { drawn with cursorX := drawn.cursorX + 1 }
    if next.cursorX ≥ COLS then next.newline else next

/-- `kprint`. -/
def kprint (font_8x8 : Nat → Nat → Byte) (s : CString) (color : Pixel) (console : Console) :
    Console :=
  s.bytes.foldl (fun console c => printChar font_8x8 color c console) console

/-- `kprintn`. -/
def kprintn (font_8x8 : Nat → Nat → Byte) (s : Nat → Byte) (len : Nat) (color : Pixel) :
    Console → Console :=
  forRange (fun i => printChar font_8x8 color (s i)) len

theorem paint_cursorY (index : Nat → Int) (color : Nat → Console → Pixel) (n : Nat)
    (console : Console) : (paint index color n console).cursorY = console.cursorY := by
  induction n with
  | zero => rfl
  | succ n ih => exact ih

theorem scrollPixels_cursorY (kept all : Nat) (console : Console) :
    (console.scrollPixels kept all).cursorY = console.cursorY - 1 := by
  unfold scrollPixels
  dsimp only
  rw [paint_cursorY, paint_cursorY]

theorem scroll_cursorY (console : Console) : console.scroll.cursorY = console.cursorY - 1 :=
  scrollPixels_cursorY _ _ console

/-- The loop of `console_set_pos`. -/
def scrollUp (console : Console) : Console :=
  if console.cursorY ≥ ROWS then scrollUp console.scroll else console
termination_by (console.cursorY - ROWS + 1).toNat
decreasing_by
  rw [scroll_cursorY]
  omega

/-- `console_set_pos`. -/
def consoleSetPos (col row : Int) (console : Console) : Console :=
  scrollUp { console with cursorX := col, cursorY := row }

/-- `kprint_logo`. -/
def kprintLogo (font_8x8 : Nat → Nat → Byte) (image_data : Nat → Pixel) (console : Console) :
    Console :=
  let console :=
    if console.cursorX ≠ 0 then kprint font_8x8 ⟨[0x0A], by decide⟩ 0 console else console
  let start_x := console.cursorX * CHAR_W
  let start_y := console.cursorY * FONT_CHAR_H
  let drawn := forRange (fun y => forRange (fun x console =>
    console.putpixel (start_x + x) (start_y + y) (image_data (y * image_width + x))) image_width)
    image_height console
  consoleSetPos 0 (console.cursorY + 3) drawn

/-- The console after `cinit`. -/
def cinit (fb : Int → Pixel) : Console := ⟨0, 0, fb, []⟩

/-- Calls of the console. -/
inductive Request where
  | kprint (s : CString) (color : Pixel)
  | kprintn (s : Nat → Byte) (len : Nat) (color : Pixel)
  | kprintLogo

/-- Serve a call. -/
def serve (font_8x8 : Nat → Nat → Byte) (image_data : Nat → Pixel) (console : Console) :
    Request → Console
  | .kprint s color => console.kprint font_8x8 s color
  | .kprintn s len color => console.kprintn font_8x8 s len color
  | .kprintLogo => console.kprintLogo font_8x8 image_data

/-! ## What is written -/

/-- Everything written since `cinit` is in the framebuffer. -/
def Inside (console : Console) : Prop :=
  ∀ i ∈ console.written, 0 ≤ i ∧ i < SCREEN_W * SCREEN_H

/-- The cursor is on the screen, and everything is in the framebuffer. -/
structure OnScreen (console : Console) : Prop where
  left : 0 ≤ console.cursorX
  right : console.cursorX < COLS
  top : 0 ≤ console.cursorY
  bottom : console.cursorY < ROWS
  inside : console.Inside

/-- The console has drawn, and its cursor is where it was. -/
structure Drawn (before after : Console) : Prop where
  x : after.cursorX = before.cursorX
  y : after.cursorY = before.cursorY
  inside : after.Inside

variable {console before after : Console} {font_8x8 : Nat → Nat → Byte}

theorem Inside.store (inside : console.Inside) {i : Int} {color : Pixel} (low : 0 ≤ i)
    (high : i < SCREEN_W * SCREEN_H) : (console.store i color).Inside := by
  intro j member
  rcases List.mem_cons.mp member with rfl | old
  · exact ⟨low, high⟩
  · exact inside j old

theorem Drawn.refl (inside : console.Inside) : Drawn console console := ⟨rfl, rfl, inside⟩

theorem Drawn.store (drawn : Drawn before after) {i : Int} {color : Pixel} (low : 0 ≤ i)
    (high : i < SCREEN_W * SCREEN_H) : Drawn before (after.store i color) :=
  ⟨drawn.x, drawn.y, drawn.inside.store low high⟩

/-- A pixel with coordinates on the screen is in the framebuffer. -/
theorem Drawn.putpixel (drawn : Drawn before after) {x y : Int} {color : Pixel} (left : 0 ≤ x)
    (right : x < SCREEN_W) (top : 0 ≤ y) (bottom : y < SCREEN_H) :
    Drawn before (after.putpixel x y color) := by
  apply drawn.store
  · simp only [SCREEN_W]
    omega
  · simp only [SCREEN_W, SCREEN_H] at *
    omega

theorem drawchar_drawn (inside : console.Inside) {x y : Int} (c : Byte) (color : Pixel)
    (left : 0 ≤ x) (right : x + 8 ≤ SCREEN_W) (top : 0 ≤ y) (bottom : y + 8 ≤ SCREEN_H) :
    Drawn console (drawchar font_8x8 x y c color console) := by
  unfold drawchar
  apply forRange_invariant (Drawn.refl inside)
  intro row rowSmall middle drawn
  apply forRange_invariant drawn
  intro col colSmall middle drawn
  split
  · apply drawn.putpixel <;> omega
  · exact drawn

theorem Drawn.paint {n : Nat} {index : Nat → Int} {color : Nat → Console → Pixel}
    (drawn : Drawn before after) (low : ∀ i < n, 0 ≤ index i)
    (high : ∀ i < n, index i < SCREEN_W * SCREEN_H) :
    Drawn before (paint index color n after) := by
  apply forRange_invariant drawn
  intro i small middle drawn
  exact drawn.store (low i small) (high i small)

/-- `scroll` moves the cursor up, and nothing else. -/
theorem scrollPixels_drawn (inside : console.Inside) {kept all : Nat} (smaller : kept ≤ all)
    (small : all ≤ SCREEN_W * SCREEN_H) :
    Drawn { console with cursorY := console.cursorY - 1 } (console.scrollPixels kept all) := by
  have moved : Drawn console (Console.paint (fun i => i)
      (fun i console => console.fb (i + row_pixels : Nat)) kept console) := by
    apply (Drawn.refl inside).paint
    · intro i below
      exact Int.natCast_nonneg i
    · intro i below
      omega
  have cleared : Drawn console (Console.paint (fun i => (kept + i : Nat))
      (fun _ _ => 0xFFFFFFFF) (all - kept) (Console.paint (fun i => i)
        (fun i console => console.fb (i + row_pixels : Nat)) kept console)) := by
    apply moved.paint
    · intro i below
      exact Int.natCast_nonneg _
    · intro i below
      omega
  exact ⟨cleared.x, congrArg (· - 1) cleared.y, cleared.inside⟩

theorem scroll_drawn (inside : console.Inside) :
    Drawn { console with cursorY := console.cursorY - 1 } console.scroll :=
  scrollPixels_drawn inside (by decide) (by decide)

/-- `newline` moves a cursor on the screen to the start of a line on the screen. -/
theorem newline_onScreen (top : 0 ≤ console.cursorY) (bottom : console.cursorY < ROWS)
    (inside : console.Inside) : OnScreen console.newline := by
  have rows : ROWS = 37 := by decide
  have cols : COLS = 100 := by decide
  unfold newline
  dsimp only
  split
  · rename_i below
    have drawn := @scroll_drawn { console with cursorX := 0, cursorY := console.cursorY + 1 } inside
    have x := drawn.x
    have y := drawn.y
    dsimp only at x y
    exact ⟨by omega, by omega, by omega, by omega, drawn.inside⟩
  · rename_i fits
    constructor <;> first | exact inside | (dsimp only; omega)

/-- One turn of the loops of `kprint` and `kprintn` keeps the cursor on the screen. -/
theorem OnScreen.printChar (onScreen : OnScreen console) (c : Byte) (color : Pixel) :
    OnScreen (printChar font_8x8 color c console) := by
  obtain ⟨left, right, top, bottom, inside⟩ := onScreen
  have rows : ROWS = 37 := by decide
  have cols : COLS = 100 := by decide
  unfold Console.printChar
  split
  · exact newline_onScreen top bottom inside
  · have drawn : Drawn console (drawchar font_8x8 (console.cursorX * CHAR_W)
        (console.cursorY * CHAR_H) c color console) := by
      apply drawchar_drawn inside <;> simp only [CHAR_W, CHAR_H, SCREEN_W, SCREEN_H] <;> omega
    generalize drawchar font_8x8 _ _ c color console = after at drawn ⊢
    obtain ⟨x, y, inside⟩ := drawn
    dsimp only
    split
    · apply newline_onScreen <;> first | exact inside | (dsimp only; omega)
    · constructor <;> first | exact inside | (dsimp only; omega)

/-- `kprint` of any string keeps the cursor on the screen. -/
theorem OnScreen.kprint (onScreen : OnScreen console) (s : CString) (color : Pixel) :
    OnScreen (kprint font_8x8 s color console) := by
  unfold Console.kprint
  generalize s.bytes = bytes
  induction bytes generalizing console with
  | nil => exact onScreen
  | cons c bytes ih => exact ih (onScreen.printChar c color)

theorem OnScreen.kprintn (onScreen : OnScreen console) (s : Nat → Byte) (len : Nat)
    (color : Pixel) : OnScreen (kprintn font_8x8 s len color console) :=
  forRange_invariant onScreen fun i _ _ onScreen => onScreen.printChar (s i) color

theorem paint_cursorX (index : Nat → Int) (color : Nat → Console → Pixel) (n : Nat)
    (console : Console) : (paint index color n console).cursorX = console.cursorX := by
  induction n with
  | zero => rfl
  | succ n ih => exact ih

theorem scrollPixels_cursorX (kept all : Nat) (console : Console) :
    (console.scrollPixels kept all).cursorX = console.cursorX := by
  unfold scrollPixels
  dsimp only
  rw [paint_cursorX, paint_cursorX]

theorem scroll_cursorX (console : Console) : console.scroll.cursorX = console.cursorX :=
  scrollPixels_cursorX _ _ console

theorem newline_cursorX (console : Console) : console.newline.cursorX = 0 := by
  unfold newline
  dsimp only
  split
  · rw [scroll_cursorX]
  · rfl

/-- `console_set_pos` with a row below the screen scrolls until the row is on it. -/
theorem scrollUp_onScreen (left : 0 ≤ console.cursorX) (right : console.cursorX < COLS)
    (top : 0 ≤ console.cursorY) (inside : console.Inside) : OnScreen console.scrollUp := by
  have rows : ROWS = 37 := by decide
  fun_induction scrollUp console with
  | case1 console below ih =>
      have drawn := scroll_drawn inside
      have x : console.scroll.cursorX = console.cursorX := drawn.x
      apply ih
      · rwa [x]
      · rwa [x]
      · rw [scroll_cursorY]
        omega
      · exact drawn.inside
  | case2 console fits => exact ⟨left, right, top, by omega, inside⟩

/-- `kprint_logo` first moves the cursor to the left border. -/
theorem OnScreen.home (font_8x8 : Nat → Nat → Byte) (onScreen : OnScreen console) :
    OnScreen (if console.cursorX ≠ 0 then Console.kprint font_8x8 ⟨[0x0A], by decide⟩ 0 console
      else console) ∧
      (if console.cursorX ≠ 0 then Console.kprint font_8x8 ⟨[0x0A], by decide⟩ 0 console
        else console).cursorX = 0 := by
  split
  · exact ⟨onScreen.kprint _ _, newline_cursorX console⟩
  · rename_i home
    exact ⟨onScreen, not_not.mp home⟩

/-- `kprint_logo` draws at the left border, at most 320 pixels down. -/
theorem OnScreen.kprintLogo (onScreen : OnScreen console) (image_data : Nat → Pixel) :
    OnScreen (kprintLogo font_8x8 image_data console) := by
  have rows : ROWS = 37 := by decide
  unfold Console.kprintLogo
  obtain ⟨onScreen, home⟩ := onScreen.home font_8x8
  generalize (if console.cursorX ≠ 0 then _ else console) = console at onScreen home ⊢
  obtain ⟨left, right, top, bottom, inside⟩ := onScreen
  dsimp only
  have drawn : Drawn console (forRange (fun y => forRange (fun x middle =>
      Console.putpixel (console.cursorX * CHAR_W + x) (console.cursorY * FONT_CHAR_H + y)
        (image_data (y * image_width + x)) middle) image_width) image_height console) := by
    apply forRange_invariant (Drawn.refl inside)
    intro y ySmall middle drawn
    apply forRange_invariant drawn
    intro x xSmall middle drawn
    simp only [image_width, image_height] at xSmall ySmall
    apply drawn.putpixel <;> simp only [CHAR_W, FONT_CHAR_H, SCREEN_W, SCREEN_H, home] <;> omega
  generalize forRange _ image_height console = after at drawn ⊢
  obtain ⟨x, y, inside⟩ := drawn
  apply scrollUp_onScreen
  · exact le_refl 0
  · exact (by decide : (0 : Int) < COLS)
  · dsimp only
    omega
  · exact inside

/-- Every call keeps the cursor on the screen. -/
theorem OnScreen.serve (onScreen : OnScreen console) (image_data : Nat → Pixel)
    (call : Request) : OnScreen (serve font_8x8 image_data console call) := by
  cases call with
  | kprint s color => exact onScreen.kprint s color
  | kprintn s len color => exact onScreen.kprintn s len color
  | kprintLogo => exact onScreen.kprintLogo image_data

/-- `cinit` puts the cursor in the corner. -/
theorem cinit_onScreen (fb : Int → Pixel) : OnScreen (cinit fb) := by
  constructor
  · exact le_refl 0
  · exact (by decide : (0 : Int) < COLS)
  · exact le_refl 0
  · exact (by decide : (0 : Int) < ROWS)
  · intro i member
    cases member

/-- Whatever is printed, the cursor stays on the screen, and every pixel that is drawn is in
the framebuffer. -/
theorem console_onScreen (font_8x8 : Nat → Nat → Byte) (image_data : Nat → Pixel)
    (fb : Int → Pixel) (calls : List Request) :
    OnScreen (calls.foldl (serve font_8x8 image_data) (cinit fb)) := by
  have run : ∀ console, OnScreen console →
      OnScreen (calls.foldl (serve font_8x8 image_data) console) := by
    induction calls with
    | nil => exact fun _ onScreen => onScreen
    | cons call calls ih => exact fun console onScreen => ih _ (onScreen.serve image_data call)
  exact run _ (cinit_onScreen fb)

end Console

end Notux.Dev
