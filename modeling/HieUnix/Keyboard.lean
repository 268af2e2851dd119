import HieUnix.Process
import HieUnix.Devices
import HieUnix.Screen

/-!
# The keyboard (`terminal.c`)

`do_handle_keyboard` with everything it reads and writes: the line buffers, the modifier flags, the
screen, the interrupt masks and, for a terminal switch, the process tables. `ttyLTS` has the runs
of what shares this state: key presses, characters written by processes of any terminal, reads,
and mouse clicks.
-/

namespace HieUnix

open Function

/-! ## Key maps -/

/-- The characters of the key maps that have no plain literal. -/
abbrev quote : Char := Char.ofNat 0x27
abbrev doubleQuote : Char := Char.ofNat 0x22
abbrev backquote : Char := Char.ofNat 0x60
abbrev backslash : Char := Char.ofNat 0x5C
abbrev openBrace : Char := Char.ofNat 0x7B
abbrev closeBrace : Char := Char.ofNat 0x7D

/-- The entries of a key map that come before the function keys. The last one is the space bar. -/
def keyRows (digits top home bottom : List Char) : List Byte :=
  [0, 0] ++ digits.map chr ++ [0x08] ++ [0] ++ top.map chr ++ [0x0A] ++ [0] ++ home.map chr ++ [0] ++
    bottom.map chr ++ [0, 0, 0] ++ [chr ' ']

/-- The rest of a key map: only the keypad's minus and plus have a character. -/
def keypad : List Byte := List.replicate 16 0 ++ [chr '-', 0, 0, 0, chr '+']

/-- `keymap`. Its other entries are 0. -/
def keymap : List Byte :=
  keyRows ['1', '2', '3', '4', '5', '6', '7', '8', '9', '0', '-', '=']
    ['q', 'w', 'e', 'r', 't', 'y', 'u', 'i', 'o', 'p', '[', ']']
    ['a', 's', 'd', 'f', 'g', 'h', 'j', 'k', 'l', ';', quote, backquote]
    [backslash, 'z', 'x', 'c', 'v', 'b', 'n', 'm', ',', '.', '/'] ++ keypad

/-- `shift_keymap`. -/
def shiftKeymap : List Byte :=
  keyRows ['!', '@', '#', '$', '%', '^', '&', '*', '(', ')', '_', '+']
    ['Q', 'W', 'E', 'R', 'T', 'Y', 'U', 'I', 'O', 'P', openBrace, closeBrace]
    ['A', 'S', 'D', 'F', 'G', 'H', 'J', 'K', 'L', ':', doubleQuote, '~']
    ['|', 'Z', 'X', 'C', 'V', 'B', 'N', 'M', '<', '>', '?'] ++ keypad

/-- `caps_lock_keymap`. -/
def capsLockKeymap : List Byte :=
  keyRows ['1', '2', '3', '4', '5', '6', '7', '8', '9', '0', '-', '=']
    ['Q', 'W', 'E', 'R', 'T', 'Y', 'U', 'I', 'O', 'P', '[', ']']
    ['A', 'S', 'D', 'F', 'G', 'H', 'J', 'K', 'L', ';', quote, backquote]
    [backslash, 'Z', 'X', 'C', 'V', 'B', 'N', 'M', ',', '.', '/'] ++ keypad

/-- `shift_cl_keymap`. -/
def shiftClKeymap : List Byte :=
  keyRows ['!', '@', '#', '$', '%', '^', '&', '*', '(', ')', '_', '+']
    ['q', 'w', 'e', 'r', 't', 'y', 'u', 'i', 'o', 'p', openBrace, closeBrace]
    ['a', 's', 'd', 'f', 'g', 'h', 'j', 'k', 'l', ':', doubleQuote, '~']
    ['|', 'z', 'x', 'c', 'v', 'b', 'n', 'm', '<', '>', '?'] ++ keypad

/-! ## Modifiers -/

/-- The function key flags. -/
structure Modifiers where
  shiftFlag : Bool
  capsLockFlag : Bool
  ctrlFlag : Bool
  altFlag : Bool
deriving DecidableEq, Repr

/-- `get_key`. For the codes past the end of the tables, which are break codes, nothing uses the
result. -/
def getKey (mods : Modifiers) (c : Byte) : Byte :=
  let keys :=
    if mods.shiftFlag && mods.capsLockFlag then shiftClKeymap
    else if mods.shiftFlag then shiftKeymap
    else if mods.capsLockFlag then capsLockKeymap
    else keymap
  keys.getD c.toNat 0

/-- `fn_key` of `do_handle_keyboard`: the make and break codes of the modifiers. -/
def fnKey (c : Byte) : Bool :=
  c == 54 || c == 58 || c == 29 || c == 182 || c == 186 || c == 157 || c == 170 || c == 42 ||
    c == 56 || c == 184

/-- `c & FIRST_BIT_SET`: whether a scan code says that a key was released. -/
def isBreak (c : Byte) : Bool := c &&& 0x80 != 0

/-- The flags after a break code. -/
def breakKey (mods : Modifiers) (c : Byte) : Modifiers :=
  if c = 170 ∨ c = 182 then { mods with shiftFlag := false }
  else if c = 186 then { mods with capsLockFlag := !mods.capsLockFlag }
  else if c = 157 then { mods with ctrlFlag := false }
  else if c = 184 then { mods with altFlag := false }
  else mods

/-- The flags after a make code. -/
def makeKey (mods : Modifiers) (c : Byte) : Modifiers :=
  if c = 42 ∨ c = 54 then { mods with shiftFlag := true }
  else if c = 29 then { mods with ctrlFlag := true }
  else if c = 56 then { mods with altFlag := true }
  else mods

/-- The terminal of the keys F1, F2 and F3. -/
def fnTerminal (c : Byte) : Option Term :=
  if c = 59 then some 0 else if c = 60 then some 1 else if c = 61 then some 2 else none

/-- The terminal a make code asks for: F1, F2 or F3 with the Alt flag set. -/
def switchKey (mods : Modifiers) (c : Byte) : Option Term :=
  if mods.altFlag then fnTerminal c else none

/-- Whether a scan code is that of the return key. -/
def isEnter (mods : Modifiers) (c : Byte) : Bool := !isBreak c && isNewline (getKey mods c)

/-! ## State -/

/-- What the handlers of the keyboard and the mouse and the calls of `terminal.c` share: the line
buffers, the screen, the interrupt masks, and the modifier flags. -/
structure Tty where
  con : Console
  scr : Screen
  pic : Pic
  mods : Modifiers

/-- `current_active_terminal`. -/
abbrev Tty.active (tty : Tty) : Term := tty.con.currentActiveTerminal

/-- `KB_IRQ_LINE`. -/
abbrev kbIrqLine : ℕ := 1

/-! ## Line editing -/

namespace Console

/-- Console state with one byte of a line buffer changed. -/
def setInput (con : Console) (t : Term) (i : ℕ) (v : Byte) : Console :=
  { con with inputBuffer := update con.inputBuffer t (update (con.inputBuffer t) i v) }

/-- Console state with the position in a line buffer changed. -/
def setPos (con : Console) (t : Term) (pos : ℕ) : Console :=
  { con with currBuffPos := update con.currBuffPos t pos }

/-- `input_buffer[t][curr_buff_pos[t] - 1] = 0`. At position 0 that is the last byte of the row
before, or, for terminal 0, a byte outside the array. -/
def eraseInput (con : Console) (t : Term) : Console :=
  if con.currBuffPos t ≠ 0 then con.setInput t (con.currBuffPos t - 1) 0
  else if t ≠ 0 then con.setInput (t - 1) (maxBufferSize - 1) 0
  else con

/-- The line buffer of a terminal cleared. -/
def clearInput (con : Console) (t : Term) : Console :=
  { con with inputBuffer := update con.inputBuffer t fun _ => 0 }

end Console

/-- The backspace key: `curr_buff_pos` is decremented and clamped after the store. -/
def backspaceKey (tty : Tty) : Tty :=
  let t := tty.active
  let con := tty.con.eraseInput t
  if con.currBuffPos t = 0 then { tty with con := con }
  else
    { tty with
      con := con.setPos t (con.currBuffPos t - 1)
      scr := putBackspace t t tty.scr }

/-- The return key. -/
def enterKey (tty : Tty) (key : Byte) : Tty :=
  let t := tty.active
  let con := { tty.con with enterFlag := update tty.con.enterFlag t 1 }
  let con := { con with enterBuffer := con.inputBuffer t }
  { tty with
    con := (con.clearInput t).setPos t 0
    scr := putc t tty.scr key }

/-- Ctrl-L. -/
def clearKey (tty : Tty) : Tty :=
  let t := tty.active
  { tty with
    con := (tty.con.clearInput t).setPos t 0
    scr := clear t tty.scr }

/-- A key with a character. -/
def characterKey (tty : Tty) (key : Byte) : Tty :=
  let t := tty.active
  { tty with
    con := (tty.con.setInput t (tty.con.currBuffPos t) key).setPos t (tty.con.currBuffPos t + 1)
    scr := putc t tty.scr key }

/-- `do_handle_keyboard` on a make code `c` that does not switch terminals. -/
def typeKey (tty : Tty) (c key : Byte) : Tty :=
  if key = 0x08 then backspaceKey tty
  else if key = chr '\n' ∨ key = chr '\r' then enterKey tty key
  else if (key = chr 'l' ∨ key = chr 'L') ∧ tty.mods.ctrlFlag then clearKey tty
  else if ¬ fnKey c ∧ tty.con.currBuffPos tty.active < maxBufferSize then
    if key ≠ 0 then characterKey tty key else tty
  else tty

/-! ## The handler -/

/-- `send_eoi(KB_IRQ_LINE); enable_irq(KB_IRQ_LINE)`. -/
def acknowledge (tty : Tty) (line : ℕ) : Tty :=
  { tty with pic := enableIrq (sendEoi tty.pic line) line }

/-- Whether `change_video_mem` goes through with a switch. -/
def Kernel.Switches (k : Kernel) (oldTermNum newTermNum : Term) : Prop :=
  oldTermNum ≠ newTermNum ∧ ¬ (firstFree k.pcbUsed = none ∧ k.termCurrPcb newTermNum = none)

instance (k : Kernel) (oldTermNum newTermNum : Term) :
    Decidable (k.Switches oldTermNum newTermNum) := inferInstanceAs (Decidable (_ ∧ _))

/-- What `change_video_mem` does besides its effect on the process tables. -/
def changeScreen (k : Kernel) (tty : Tty) (newTermNum : Term) : Tty :=
  if k.Switches tty.active newTermNum then
    { tty with
      con := { tty.con with currentActiveTerminal := newTermNum }
      scr := showTerminal tty.scr newTermNum }
  else tty

/-- `do_handle_keyboard` after `change_video_mem`. When that has executed a shell, this is run when
the interrupted process is resumed. -/
def afterSwitch (tty : Tty) : Tty :=
  acknowledge { tty with scr := resetCursor tty.scr } kbIrqLine

/-- `do_handle_keyboard` before it looks at the key: the line is masked and the selection is
cleared. -/
def beforeKey (tty : Tty) : Tty :=
  { tty with
    pic := disableIrq tty.pic kbIrqLine
    scr := select tty.scr (tty.scr.mouse.selected 0) (tty.scr.mouse.selected 1) 0 }

/-- `do_handle_keyboard`, in the frame `fr`, on the scan code `c`. -/
def doHandleKeyboard (m : Machine) (k : Kernel) (fr : Frame) (tty : Tty) (c : Byte) :
    Control × Kernel × Tty :=
  let key := getKey tty.mods c
  let tty := beforeKey tty
  if isBreak c then
    (.ret 0, k, acknowledge { tty with mods := breakKey tty.mods c } kbIrqLine)
  else
    let tty := { tty with mods := makeKey tty.mods c }
    match switchKey tty.mods c with
    | some newNum =>
      let tty := acknowledge tty kbIrqLine
      let tty' := changeScreen k tty newNum
      match changeVideoMem m k fr tty.active newNum with
      | (.ret _, k) => (.ret 0, k, afterSwitch tty')
      | (r, k) => (r, k, tty')
    | none => (.ret 0, k, acknowledge (typeKey tty c key) kbIrqLine)

/-- The characters of the row of the cell `newPos`, as `run_prog` reads them. -/
def rowChar (s : Screen) (newPos : Word) (i : ℕ) : Byte :=
  let rowStart := newPos - newPos % BitVec.ofNat 32 numCols
  s.mem (video + ((rowStart + BitVec.ofNat 32 i) <<< 1).toNat)

/-- `run_prog`: a click on the cell `newPos`. -/
def runProg (tty : Tty) (newPos : Word) : Tty :=
  { tty with
    con := { tty.con with
      mouseCommand := fun i =>
        if i < fnameSize then rowChar tty.scr newPos i else tty.con.mouseCommand i
      enterFlag := update tty.con.enterFlag tty.active 1 } }

/-! ## Runs -/

/-- An event of the terminals. The process tables are those at the moment of a key press. -/
inductive TtyOp
  | key (k : Kernel) (fr : Frame) (c : Byte)
  | afterSwitch
  | putc (t : Term) (c : Byte)
  | read (t : Term) (mem : Memory) (buf nbytes : Word)
  | click (newPos : Word)

/-- When an event can happen: `terminal_read` gets past its loop when `enter_flag` is set, and a
click is on a cell. -/
def TtyOp.Enabled (tty : Tty) : TtyOp → Prop
  | .key k _ _ => k.currentActiveTerminal = tty.active
  | .afterSwitch => True
  | .putc _ _ => True
  | .read t _ buf _ => buf = 0 ∨ tty.con.enterFlag t ≠ 0
  | .click newPos => newPos.toNat < numRows * numCols

/-- The effect of an event. -/
def TtyOp.run (m : Machine) (tty : Tty) : TtyOp → Tty
  | .key k fr c => (doHandleKeyboard m k fr tty c).2.2
  | .afterSwitch => HieUnix.afterSwitch tty
  | .putc t c => { tty with scr := terminalPutc tty.active t tty.scr c }
  | .read t mem buf nbytes => { tty with con := (terminalRead tty.con t mem buf nbytes).2.1 }
  | .click newPos => runProg tty newPos

/-- No line typed, and nothing pending. -/
def bootConsole : Console where
  enterFlag _ := 0
  enterBuffer _ := 0
  inputBuffer _ _ := 0
  currBuffPos _ := 0
  mouseCommand _ := 0
  currentActiveTerminal := 0
  written := []

/-- The lines that `entry` has unmasked at its end. -/
def entryPic : Pic := [1, 2, 8, 12, 0].foldl enableIrq ⟨0xFF, 0xFF, 0xFF, 0xFF⟩

/-- The terminals at the end of `entry`: it clears the screen and prints a banner. The rest of the
video memory holds what it does. -/
def bootTty (mem : ℤ → Byte) (banner : List Byte) : Tty where
  con := bootConsole
  scr := banner.foldl (putc 0) (clear 0 (bootScreen mem))
  pic := entryPic
  mods := ⟨false, false, false, false⟩

/-- The runs of the terminals. -/
def ttyLTS (m : Machine) : LTS Tty TtyOp where
  init tty := ∃ mem banner, tty = bootTty mem banner
  step tty op tty' := op.Enabled tty ∧ tty' = op.run m tty

/-! ## What a key press does -/

variable {m : Machine} {k : Kernel} {fr : Frame} {tty : Tty} {c : Byte}

/-- The state in which `do_handle_keyboard` looks at a make code. -/
def madeKey (tty : Tty) (c : Byte) : Tty :=
  { beforeKey tty with mods := makeKey tty.mods c }

/-- A key press changes a flag, is typed, or switches terminals. A switch that executes a shell
leaves the end of the handler for later. -/
theorem doHandleKeyboard_cases (m : Machine) (k : Kernel) (fr : Frame) (tty : Tty) (c : Byte) :
    let tty' := (doHandleKeyboard m k fr tty c).2.2
    (isBreak c = true ∧
      tty' = acknowledge { beforeKey tty with mods := breakKey tty.mods c } kbIrqLine) ∨
    (isBreak c = false ∧ switchKey (makeKey tty.mods c) c = none ∧
      tty' = acknowledge (typeKey (madeKey tty c) c (getKey tty.mods c)) kbIrqLine) ∨
    (isBreak c = false ∧ ∃ newNum, switchKey (makeKey tty.mods c) c = some newNum ∧
      (tty' = changeScreen k (acknowledge (madeKey tty c) kbIrqLine) newNum ∨
        tty' = afterSwitch (changeScreen k (acknowledge (madeKey tty c) kbIrqLine) newNum))) := by
  intro tty'
  have hmods : (beforeKey tty).mods = tty.mods := rfl
  cases hbreak : isBreak c with
  | true =>
    left
    exact ⟨rfl, by simp only [tty', doHandleKeyboard, hbreak, if_true, hmods]⟩
  | false =>
    right
    cases hswitch : switchKey (makeKey tty.mods c) c with
    | none =>
      left
      refine ⟨rfl, rfl, ?_⟩
      simp only [tty', doHandleKeyboard, hbreak, Bool.false_eq_true, if_false, hmods, hswitch,
        madeKey]
    | some newNum =>
      right
      refine ⟨rfl, newNum, rfl, ?_⟩
      have hmade : { beforeKey tty with mods := makeKey tty.mods c } = madeKey tty c := rfl
      simp only [tty', doHandleKeyboard, hbreak, Bool.false_eq_true, if_false, hmods, hswitch, hmade]
      cases changeVideoMem m k fr (acknowledge (madeKey tty c) kbIrqLine).active newNum with
      | mk r k' =>
        cases r with
        | ret v => exact .inr rfl
        | enter eip => exact .inl rfl
        | jump esp ebp eip => exact .inl rfl

/-- A key that is typed is an edit of the active terminal's line, or nothing. -/
theorem typeKey_cases (tty : Tty) (c key : Byte) :
    typeKey tty c key = tty ∨ key = 0x08 ∧ typeKey tty c key = backspaceKey tty ∨
      isNewline key = true ∧ typeKey tty c key = enterKey tty key ∨
      typeKey tty c key = clearKey tty ∨
      tty.con.currBuffPos tty.active < maxBufferSize ∧ isNewline key = false ∧ key ≠ 0 ∧
        typeKey tty c key = characterKey tty key := by
  by_cases hback : key = 0x08
  · exact .inr (.inl ⟨hback, if_pos hback⟩)
  by_cases henter : key = chr '\n' ∨ key = chr '\r'
  · refine .inr (.inr (.inl ⟨?_, ?_⟩))
    · simpa [isNewline] using henter
    · rw [typeKey, if_neg hback, if_pos henter]
  have hline : isNewline key = false := by simpa [isNewline] using henter
  by_cases hclear : (key = chr 'l' ∨ key = chr 'L') ∧ tty.mods.ctrlFlag = true
  · refine .inr (.inr (.inr (.inl ?_)))
    rw [typeKey, if_neg hback, if_neg henter, if_pos hclear]
  by_cases hchar : ¬ fnKey c = true ∧ tty.con.currBuffPos tty.active < maxBufferSize
  · by_cases hkey : key = 0
    · left
      rw [typeKey, if_neg hback, if_neg henter, if_neg hclear, if_pos hchar,
        if_neg (not_not_intro hkey)]
    · refine .inr (.inr (.inr (.inr ⟨hchar.2, hline, hkey, ?_⟩)))
      rw [typeKey, if_neg hback, if_neg henter, if_neg hclear, if_pos hchar, if_pos hkey]
  · left
    rw [typeKey, if_neg hback, if_neg henter, if_neg hclear, if_neg hchar]

theorem eraseInput_active (con : Console) (t : Term) :
    (con.eraseInput t).currentActiveTerminal = con.currentActiveTerminal := by
  unfold Console.eraseInput; split_ifs <;> rfl

theorem eraseInput_currBuffPos (con : Console) (t : Term) :
    (con.eraseInput t).currBuffPos = con.currBuffPos := by
  unfold Console.eraseInput; split_ifs <;> rfl

/-- Nothing typed: the key only stores before the row. -/
theorem backspaceKey_of_eq_zero (h : tty.con.currBuffPos tty.active = 0) :
    backspaceKey tty = { tty with con := tty.con.eraseInput tty.active } := by
  rw [backspaceKey]
  simp only [eraseInput_currBuffPos, h, if_true]

/-- Something typed: the last character goes. -/
theorem backspaceKey_of_ne_zero (h : tty.con.currBuffPos tty.active ≠ 0) :
    backspaceKey tty =
      { tty with
        con := (tty.con.setInput tty.active (tty.con.currBuffPos tty.active - 1) 0).setPos tty.active
          (tty.con.currBuffPos tty.active - 1)
        scr := putBackspace tty.active tty.active tty.scr } := by
  have herase : tty.con.eraseInput tty.active
      = tty.con.setInput tty.active (tty.con.currBuffPos tty.active - 1) 0 := if_pos h
  rw [backspaceKey]
  simp only [eraseInput_currBuffPos, h, if_false]
  rw [herase]

theorem fnTerminal_eq_some {newNum : Term} (h : fnTerminal c = some newNum) :
    c = 59 ∨ c = 60 ∨ c = 61 := by
  rw [fnTerminal] at h
  split_ifs at h <;> simp_all

/-- The function keys are no modifiers. -/
theorem makeKey_of_fnTerminal {newNum : Term} (h : fnTerminal c = some newNum)
    (mods : Modifiers) : makeKey mods c = mods := by
  rcases fnTerminal_eq_some h with rfl | rfl | rfl <;> rfl

/-- F1, F2 and F3 with the Alt flag set switch terminals. -/
theorem doHandleKeyboard_of_switch (m : Machine) (k : Kernel) (fr : Frame) {newNum : Term}
    (halt : tty.mods.altFlag = true) (h : fnTerminal c = some newNum) :
    (doHandleKeyboard m k fr tty c).2.2
        = changeScreen k (acknowledge (madeKey tty c) kbIrqLine) newNum ∨
      (doHandleKeyboard m k fr tty c).2.2
        = afterSwitch (changeScreen k (acknowledge (madeKey tty c) kbIrqLine) newNum) := by
  have hswitch : switchKey (makeKey tty.mods c) c = some newNum := by
    rw [makeKey_of_fnTerminal h, switchKey]
    exact (if_pos halt).trans h
  rcases doHandleKeyboard_cases m k fr tty c with ⟨hbreak, -⟩ | ⟨-, hnone, -⟩ |
    ⟨-, newNum', hsome, hcases⟩
  · rcases fnTerminal_eq_some h with rfl | rfl | rfl <;> cases hbreak
  · rw [hswitch] at hnone
    cases hnone
  · rw [hswitch] at hsome
    rw [Option.some.inj hsome]
    exact hcases

/-! ## The return key and the others -/

/-- What a read would find: the flags, the completed line and the command of a click. -/
structure Console.SamePending (con con' : Console) : Prop where
  enterFlag : con.enterFlag = con'.enterFlag
  enterBuffer : con.enterBuffer = con'.enterBuffer
  mouseCommand : con.mouseCommand = con'.mouseCommand

theorem Console.SamePending.refl (con : Console) : con.SamePending con := ⟨rfl, rfl, rfl⟩

theorem eraseInput_samePending (con : Console) (t : Term) : (con.eraseInput t).SamePending con := by
  unfold Console.eraseInput; split_ifs <;> exact ⟨rfl, rfl, rfl⟩

/-- Only the return key completes a line. -/
theorem typeKey_samePending (tty : Tty) (c : Byte) {key : Byte} (hline : isNewline key = false) :
    (typeKey tty c key).con.SamePending tty.con := by
  rcases typeKey_cases tty c key with h | ⟨-, h⟩ | ⟨hnew, -⟩ | h | ⟨-, -, -, h⟩
  · rw [h]
    exact .refl _
  · rw [h]
    by_cases hpos : tty.con.currBuffPos tty.active = 0
    · rw [backspaceKey_of_eq_zero hpos]
      exact eraseInput_samePending tty.con tty.active
    · rw [backspaceKey_of_ne_zero hpos]
      exact ⟨rfl, rfl, rfl⟩
  · rw [hline] at hnew
    cases hnew
  · rw [h]
    exact ⟨rfl, rfl, rfl⟩
  · rw [h]
    exact ⟨rfl, rfl, rfl⟩

theorem changeScreen_samePending (k : Kernel) (tty : Tty) (newTermNum : Term) :
    (changeScreen k tty newTermNum).con.SamePending tty.con := by
  unfold changeScreen; split_ifs <;> exact ⟨rfl, rfl, rfl⟩

theorem isNewline_of_isEnter_eq_false {mods : Modifiers} (h : isEnter mods c = false)
    (hmake : isBreak c = false) : isNewline (getKey mods c) = false := by
  simpa [isEnter, hmake] using h

theorem doHandleKeyboard_samePending (m : Machine) (k : Kernel) (fr : Frame)
    (h : isEnter tty.mods c = false) :
    (doHandleKeyboard m k fr tty c).2.2.con.SamePending tty.con := by
  rcases doHandleKeyboard_cases m k fr tty c with ⟨-, hbreak⟩ | ⟨hmake, -, htype⟩ |
    ⟨-, newNum, -, hswitch | hswitch⟩
  · rw [hbreak]
    exact .refl _
  · rw [htype]
    exact typeKey_samePending (madeKey tty c) c (isNewline_of_isEnter_eq_false h hmake)
  · rw [hswitch]
    exact changeScreen_samePending k _ newNum
  · rw [hswitch]
    exact changeScreen_samePending k _ newNum

/-- The function keys have no character. -/
theorem getKey_of_fnTerminal {newNum : Term} (h : fnTerminal c = some newNum) (mods : Modifiers) :
    getKey mods c = 0 := by
  have hmap : ∀ c ∈ [59, 60, 61], ∀ keys ∈
      [shiftClKeymap, shiftKeymap, capsLockKeymap, keymap], keys.getD (c : Byte).toNat 0 = 0 := by
    decide
  have hmem : c ∈ [59, 60, 61] := by simpa using fnTerminal_eq_some h
  apply hmap c hmem
  split_ifs <;> simp

theorem typeKey_of_newline (tty : Tty) (c : Byte) {key : Byte} (h : isNewline key = true) :
    typeKey tty c key = enterKey tty key := by
  have henter : key = chr '\n' ∨ key = chr '\r' := by simpa [isNewline] using h
  have hback : key ≠ 0x08 := by
    rcases henter with rfl | rfl <;> decide
  rw [typeKey, if_neg hback, if_pos henter]

/-- The return key completes the line of the active terminal. -/
theorem doHandleKeyboard_enter (m : Machine) (k : Kernel) (fr : Frame)
    (h : isEnter tty.mods c = true) :
    (doHandleKeyboard m k fr tty c).2.2
      = acknowledge (enterKey (madeKey tty c) (getKey tty.mods c)) kbIrqLine := by
  have hboth : isBreak c = false ∧ isNewline (getKey tty.mods c) = true := by
    simpa [isEnter] using h
  have hswitch : switchKey (makeKey tty.mods c) c = none := by
    cases hsome : switchKey (makeKey tty.mods c) c with
    | none => rfl
    | some newNum =>
      rw [switchKey] at hsome
      split_ifs at hsome
      have hzero := getKey_of_fnTerminal hsome tty.mods
      rw [hzero] at hboth
      cases hboth.2
  rcases doHandleKeyboard_cases m k fr tty c with ⟨hbreak, -⟩ | ⟨-, -, htype⟩ |
    ⟨-, newNum, hsome, -⟩
  · rw [hboth.1] at hbreak
    cases hbreak
  · rw [htype]
    congr 1
    exact typeKey_of_newline _ c hboth.2
  · rw [hswitch] at hsome
    cases hsome

end HieUnix
