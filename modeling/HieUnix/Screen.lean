import HieUnix.Types

/-!
# The screen (`lib.c`, and what `mouse.c` draws)

The video memory at `VIDEO` is what is seen. Behind it each terminal has a backup page with its
own copy of the screen, 80 columns by 25 rows of a character and an attribute byte each. The
functions of `lib.c` write a backup page, and the video memory too when the terminal is the active
one. Addresses and cursor positions are integers, so that an index that is out of range
(`put_backspace` can compute -1) is an address like any other.

`current_active_terminal` is not a field: every function that reads it takes it as its first
argument, as `active`.
-/

namespace HieUnix

open Function

/-- `NUM_COLS`, also `SCREEN_W`. -/
abbrev numCols : ℕ := 80
/-- `NUM_ROWS`, also `SCREEN_H`. -/
abbrev numRows : ℕ := 25
/-- `VIDEO`. -/
abbrev video : ℤ := 0xB8000
/-- `VIDEO_1`. -/
abbrev video1 : ℤ := 0xB9000
/-- `VIDEO_PAGE_SIZE`. -/
abbrev videoPageSize : ℤ := 0x1000
/-- `ATTRIB`. -/
abbrev attribByte : Byte := 0x7
/-- `MOUSE_ATTRIB`. -/
abbrev mouseAttrib : Byte := 0x70

/-- The backup page of a terminal: `VIDEO + (terminal_num + 1) * VIDEO_PAGE_SIZE`. -/
def pageBase (t : Term) : ℤ := video + (t.val + 1) * videoPageSize

instance neZeroTwo : NeZero 2 := ⟨by decide⟩

/-- The globals of `mouse.c`. The pointer never leaves the screen, and what is selected are cells of
it. -/
structure Mouse where
  mouseCycle : Word
  mouseByte : Fin 3 → Byte
  button : Fin 2 → Word
  mouseX : Fin 2 → ℤ
  mouseY : Fin 2 → ℤ
  selected : Fin 2 → Word
  mouseX_mem : ∀ i, 0 ≤ mouseX i ∧ mouseX i < numCols
  mouseY_mem : ∀ i, 0 ≤ mouseY i ∧ mouseY i < numRows
  selected_lt : ∀ i, (selected i).toNat < numRows * numCols

theorem zero_lt_numCols (_ : Fin 2) : (0 : ℤ) ≤ 0 ∧ (0 : ℤ) < numCols := by decide

theorem zero_lt_numRows (_ : Fin 2) : (0 : ℤ) ≤ 0 ∧ (0 : ℤ) < numRows := by decide

theorem zero_lt_cells (_ : Fin 2) : (0 : Word).toNat < numRows * numCols := by decide

/-- The mouse after `mouse_init`. -/
def mouseInit : Mouse where
  mouseCycle := 0
  mouseByte _ := 0
  button _ := 0
  mouseX _ := 0
  mouseY _ := 0
  selected _ := 0
  mouseX_mem := zero_lt_numCols
  mouseY_mem := zero_lt_numRows
  selected_lt := zero_lt_cells

/-- The video memory with the backup pages, the cursor of each terminal, `curr_vid_mem`, and the
mouse. -/
structure Screen where
  mem : ℤ → Byte
  screenX : Term → ℤ
  screenY : Term → ℤ
  currVidMem : ℤ
  mouse : Mouse

/-- The screen when the kernel starts: the video memory holds what it does. -/
def bootScreen (mem : ℤ → Byte) : Screen where
  mem := mem
  screenX _ := 0
  screenY _ := 0
  currVidMem := video1
  mouse := mouseInit

/-! ## Memory -/

/-- `memmove` and `memcpy`: the `n` bytes from `dest` on become those from `src` on. -/
def memmove (m : ℤ → Byte) (dest src : ℤ) (n : ℕ) : ℤ → Byte := fun b =>
  if dest ≤ b ∧ b < dest + n then m (src + (b - dest)) else m b

/-- A loop of `clear`: `n` cells from `base` on are set to blanks. -/
def clearLoop (m : ℤ → Byte) (base : ℤ) : ℕ → ℤ → Byte
  | 0 => m
  | n + 1 => update (update (clearLoop m base n) (base + 2 * n) (chr ' ')) (base + 2 * n + 1) attribByte

namespace Screen

/-- Screen state with one byte changed. -/
def store (s : Screen) (a : ℤ) (v : Byte) : Screen := { s with mem := update s.mem a v }

/-- Screen state with the cursor of one terminal changed. -/
def setCursor (s : Screen) (t : Term) (x y : ℤ) : Screen :=
  { s with screenX := update s.screenX t x, screenY := update s.screenY t y }

end Screen

/-! ## The pointer (`mouse.c`) -/

/-- `update_attribute`. -/
def updateAttribute (s : Screen) (position attrib : Word) : Screen :=
  let addr := video + (position <<< 1).toNat + 1
  if (attrib = 2 ∧ s.mem addr = attribByte) ∨ attrib = 1 then s.store addr mouseAttrib
  else s.store addr attribByte

/-- The loop of `select` over `n` positions from `i` on. -/
def selectLoop (white : Word) : ℕ → Word → Screen → Screen
  | 0, _, s => s
  | n + 1, i, s => selectLoop white n (i + 1) (updateAttribute s i white)

/-- `select`. The positions are those of cells, so that its loop ends. -/
def select (s : Screen) (pos1 pos2 white : Word) : Screen :=
  if pos1 < pos2 then selectLoop white (pos2.toNat + 1 - pos1.toNat) pos1 s
  else selectLoop white (pos1.toNat + 1 - pos2.toNat) pos2 s

/-- The position of the pointer, as `remove_cursor` and `reset_cursor` compute it. -/
def Mouse.pos (ms : Mouse) : Word := BitVec.ofInt 32 (ms.mouseY 1 * numCols + ms.mouseX 1)

/-- `remove_cursor`. -/
def removeCursor (s : Screen) : Screen := updateAttribute s s.mouse.pos 0

/-- `reset_cursor`. -/
def resetCursor (s : Screen) : Screen := updateAttribute s s.mouse.pos 2

/-! ## Output (`lib.c`) -/

/-- `clear`. -/
def clear (active : Term) (s : Screen) : Screen :=
  let s := { s with mem := clearLoop s.mem s.currVidMem (numRows * numCols) }
  let s := { s with mem := clearLoop s.mem video (numRows * numCols) }
  s.setCursor active 0 0

/-- `put_backspace`. Its index is taken from the cursor of the active terminal. -/
def putBackspace (active : Term) (terminalNum : Term) (s : Screen) : Screen :=
  let s :=
    if s.screenX terminalNum ≤ 0 then
      s.setCursor terminalNum (s.screenX terminalNum + numCols) (s.screenY terminalNum - 1)
    else s
  let off := 2 * (numCols * s.screenY active + (s.screenX active - 1))
  let s := s.store (pageBase terminalNum + off) (chr ' ')
  let s := if terminalNum = active then s.store (video + off) (chr ' ') else s
  s.setCursor terminalNum (s.screenX terminalNum - 1) (s.screenY terminalNum)

/-- `scroll_up`. -/
def scrollUp (active : Term) (s : Screen) (xPos : ℤ) (terminalNum : Term) : Screen :=
  let rowBytes : ℤ := 2 * numCols
  let s := if terminalNum = active then removeCursor s else s
  let s := { s with
    mem := memmove s.mem (pageBase terminalNum) (pageBase terminalNum + rowBytes)
      (2 * ((numRows - 1) * numCols)) }
  let s :=
    if active = terminalNum then
      { s with mem := memmove s.mem video (video + rowBytes) (2 * ((numRows - 1) * numCols)) }
    else s
  let s := (putBackspace active terminalNum)^[xPos.toNat] s
  let s := s.setCursor terminalNum (s.screenX terminalNum) (numRows - 1)
  if terminalNum = active then resetCursor s else s

/-- Whether a character ends a row: `'\n'` or `'\r'`. -/
def isNewline (c : Byte) : Bool := c == chr '\n' || c == chr '\r'

/-- The end of `putc` and `terminal_putc`: the cursor of terminal `t` after a character, with
`screen_x` already incremented. -/
def advance (active : Term) (s : Screen) (t : Term) : Screen :=
  if ¬ (s.screenX t = numCols ∧ s.screenY t = numRows - 1) then
    s.setCursor t ((s.screenX t).tmod numCols)
      ((s.screenY t + (s.screenX t).tdiv numCols).tmod numRows)
  else scrollUp active s numCols t

/-- The end of a row in `putc` and `terminal_putc`. -/
def newline (active : Term) (s : Screen) (t : Term) : Screen :=
  let s := s.setCursor t (s.screenX t) (s.screenY t + 1)
  let s :=
    if s.screenY t = numRows then
      scrollUp active (s.setCursor t (s.screenX t) (s.screenY t - 1)) (s.screenX t) t
    else s
  s.setCursor t 0 (s.screenY t)

/-- `putc`. -/
def putc (active : Term) (s : Screen) (c : Byte) : Screen :=
  if isNewline c then newline active s active
  else
    let off := 2 * (numCols * s.screenY active + s.screenX active)
    let s := s.store (s.currVidMem + off) c
    let s := s.store (s.currVidMem + off + 1) attribByte
    let s := s.store (video + off) c
    let s := s.store (video + off + 1) attribByte
    advance active (s.setCursor active (s.screenX active + 1) (s.screenY active)) active

/-- `terminal_putc`, of a process of terminal `terminalNum`. -/
def terminalPutc (active terminalNum : Term) (s : Screen) (c : Byte) : Screen :=
  if isNewline c then newline active s terminalNum
  else
    let off := 2 * (numCols * s.screenY terminalNum + s.screenX terminalNum)
    let s := s.store (pageBase terminalNum + off) c
    let s := s.store (pageBase terminalNum + off + 1) attribByte
    let s :=
      if active = terminalNum then
        (s.store (video + off) c).store (video + off + 1) attribByte
      else s
    advance active (s.setCursor terminalNum (s.screenX terminalNum + 1) (s.screenY terminalNum))
      terminalNum

/-- The screen's part of `change_video_mem`, from where the switch is decided. -/
def showTerminal (s : Screen) (newTermNum : Term) : Screen :=
  let s := { s with currVidMem := pageBase newTermNum }
  { s with mem := memmove s.mem video s.currVidMem 4000 }

end HieUnix
