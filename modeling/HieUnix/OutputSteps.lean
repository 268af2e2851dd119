import HieUnix.ScreenMirror

/-!
# Output that is interrupted

`terminal_putc` and `scroll_up` are no critical section: Alt with a function key can switch the
terminal between any two of their statements, and between two bytes of the `memmove` of the backup
page. Only what stands between `cli_and_save` and `restore_flags` is one step. `outputStep` is the
next statement; without a switch the statements are `terminalPutc` (`steps_terminalPutc`).

Two of the statements are wrong after a switch. The rows of the video memory are moved up once more
when it has been copied from the page after the page was moved; and the blank of `put_backspace` is
stored at the cursor of whatever terminal is the active one. `outputKept_of_safe` says that nothing
else is wrong.
-/

namespace HieUnix

open Function

/-! ## The statements -/

/-- Where a process is in `terminal_putc`, or in the `scroll_up` called from it: the statement that
is next. `xPos` is the argument of `scroll_up`, `n` the number of backspaces that are left, without
one that has begun. -/
inductive OutputPc
  | start
  | lastRow
  | firstColumn
  | storeAttrib
  | visible
  | nextColumn
  | nextRow
  | wrapColumn
  | removeCursor (xPos : ℤ)
  | movePage (xPos : ℤ) (i : ℕ)
  | moveVideo (xPos : ℤ)
  | backspace (n : ℕ)
  | backPage (n : ℕ)
  | backTest (n : ℕ)
  | backVideo (n : ℕ)
  | backColumn (n : ℕ)
  | bottomRow
  | resetCursor
  | done

/-- The cell at the cursor of terminal `t`. -/
def Screen.cursorCell (s : Screen) (t : Term) : ℤ := numCols * s.screenY t + s.screenX t

/-- The cell of `put_backspace`, taken from the cursor of the active terminal. -/
def Screen.backCell (s : Screen) (active : Term) : ℤ :=
  numCols * s.screenY active + (s.screenX active - 1)

/-- The number of bytes of 24 rows. -/
abbrev movedBytes : ℕ := 2 * ((numRows - 1) * numCols)

/-- The next statement of `terminal_putc` of the character `c` in a process of terminal `t`, while
`active` is the active terminal. -/
def outputStep (active t : Term) (c : Byte) (s : Screen) : OutputPc → Screen × OutputPc
  | .start =>
    if isNewline c then (s.setCursor t (s.screenX t) (s.screenY t + 1), .lastRow)
    else (s.store (pageBase t + 2 * s.cursorCell t) c, .storeAttrib)
  -- a newline
  | .lastRow =>
    if s.screenY t = numRows then
      (s.setCursor t (s.screenX t) (s.screenY t - 1), .removeCursor (s.screenX t))
    else (s, .firstColumn)
  | .firstColumn => (s.setCursor t 0 (s.screenY t), .done)
  -- another character: the page, the screen, the cursor
  | .storeAttrib => (s.store (pageBase t + 2 * s.cursorCell t + 1) attribByte, .visible)
  | .visible =>
    (if active = t then
      (s.store (video + 2 * s.cursorCell t) c).store (video + 2 * s.cursorCell t + 1) attribByte
    else s, .nextColumn)
  | .nextColumn => (s.setCursor t (s.screenX t + 1) (s.screenY t), .nextRow)
  | .nextRow =>
    if ¬ (s.screenX t = numCols ∧ s.screenY t = numRows - 1) then
      (s.setCursor t (s.screenX t) ((s.screenY t + (s.screenX t).tdiv numCols).tmod numRows),
        .wrapColumn)
    else (s, .removeCursor numCols)
  | .wrapColumn => (s.setCursor t ((s.screenX t).tmod numCols) (s.screenY t), .done)
  -- `scroll_up`: the rows of the page move, then those of the screen
  | .removeCursor xPos => (if t = active then HieUnix.removeCursor s else s, .movePage xPos 0)
  | .movePage xPos i =>
    if i < movedBytes then
      (s.store (pageBase t + i) (s.mem (pageBase t + 2 * numCols + i)), .movePage xPos (i + 1))
    else (s, .moveVideo xPos)
  | .moveVideo xPos =>
    (if active = t then { s with mem := memmove s.mem video (video + 2 * numCols) movedBytes }
    else s, .backspace xPos.toNat)
  -- its backspaces, which use the column of the active terminal
  | .backspace 0 => (s, .bottomRow)
  | .backspace (n + 1) =>
    (if s.screenX t ≤ 0 then s.setCursor t (s.screenX t + numCols) (s.screenY t - 1) else s,
      .backPage n)
  | .backPage n => (s.store (pageBase t + 2 * s.backCell active) (chr ' '), .backTest n)
  | .backTest n => (s, if t = active then .backVideo n else .backColumn n)
  | .backVideo n => (s.store (video + 2 * s.backCell active) (chr ' '), .backColumn n)
  | .backColumn n => (s.setCursor t (s.screenX t - 1) (s.screenY t), .backspace n)
  | .bottomRow => (s.setCursor t (s.screenX t) (numRows - 1), .resetCursor)
  | .resetCursor =>
    (if t = active then HieUnix.resetCursor s else s,
      if isNewline c then .firstColumn else .done)
  | .done => (s, .done)

variable {a t u : Term} {c : Byte} {s s' : Screen}

/-! ## Without a switch they are `terminalPutc` -/

/-- Some statements take a screen and a place to others. -/
def OutputSteps (a t : Term) (c : Byte) : Screen × OutputPc → Screen × OutputPc → Prop :=
  Relation.ReflTransGen fun p p' => p' = outputStep a t c p.1 p.2

theorem OutputSteps.next {pc : OutputPc} {p' : Screen × OutputPc}
    (h : OutputSteps a t c (outputStep a t c s pc) p') : OutputSteps a t c (s, pc) p' :=
  .head rfl h

/-- A `memmove` to a lower address, byte by byte. -/
theorem memmove_succ {m : ℤ → Byte} {dest src : ℤ} (hlt : dest < src) (i : ℕ) :
    update (memmove m dest src i) (dest + i) (memmove m dest src i (src + i))
      = memmove m dest src (i + 1) := by
  have hsrc : memmove m dest src i (src + i) = m (src + i) := if_neg (by omega)
  funext b
  rw [hsrc, update_apply]
  by_cases hb : b = dest + i
  · have hoff : src + (b - dest) = src + i := by omega
    rw [if_pos hb, memmove, if_pos (by omega), hoff]
  · rw [if_neg hb, memmove, memmove]
    split_ifs <;> first | rfl | omega

/-- A screen with the first `i` bytes of the rows of a page moved up. -/
def Screen.moved (s : Screen) (t : Term) (i : ℕ) : Screen :=
  { s with mem := memmove s.mem (pageBase t) (pageBase t + 2 * numCols) i }

theorem Screen.moved_zero (s : Screen) (t : Term) : s.moved t 0 = s := by
  have hmem : memmove s.mem (pageBase t) (pageBase t + 2 * numCols) 0 = s.mem := by
    funext b
    exact if_neg (by omega)
  rw [Screen.moved, hmem]

/-- The bytes of the page that are still to move. -/
theorem steps_movePage (s : Screen) (xPos : ℤ) {i d : ℕ} (hd : i + d = 3840) :
    OutputSteps a t c (s.moved t i, .movePage xPos i) (s.moved t 3840, .moveVideo xPos) := by
  induction d generalizing i with
  | zero =>
    obtain rfl : i = 3840 := hd
    apply OutputSteps.next
    rw [outputStep, if_neg (by decide : ¬ 3840 < movedBytes)]
    exact .refl
  | succ d ih =>
    have hlt : i < movedBytes := Nat.lt_of_lt_of_le (by omega : i < 3840) (Nat.le_refl _)
    have hbelow : pageBase t < pageBase t + 2 * (numCols : ℤ) :=
      Int.lt_add_of_pos_right _ (by decide)
    apply OutputSteps.next
    rw [outputStep, if_pos hlt, Screen.store, Screen.moved]
    dsimp only
    rw [memmove_succ hbelow]
    exact ih (by omega)

/-- One turn of the loop is `put_backspace`. -/
theorem steps_putBackspace (s : Screen) (n : ℕ) :
    OutputSteps a t c (s, .backspace (n + 1)) (putBackspace a t s, .backspace n) := by
  apply OutputSteps.next
  rw [outputStep]
  apply OutputSteps.next
  rw [outputStep]
  apply OutputSteps.next
  rw [outputStep]
  by_cases hta : t = a
  · rw [if_pos hta]
    apply OutputSteps.next
    rw [outputStep]
    apply OutputSteps.next
    rw [outputStep, putBackspace]
    simp only [if_pos hta]
    exact .refl
  · rw [if_neg hta]
    apply OutputSteps.next
    rw [outputStep, putBackspace]
    simp only [if_neg hta]
    exact .refl

theorem steps_backspaces (s : Screen) (n : ℕ) :
    OutputSteps a t c (s, .backspace n) ((putBackspace a t)^[n] s, .bottomRow) := by
  induction n generalizing s with
  | zero => exact .next .refl
  | succ n ih => exact (steps_putBackspace s n).trans (ih _)

/-- The statements of `scroll_up`, up to the place after it. -/
theorem steps_scrollUp (s : Screen) (xPos : ℤ) :
    OutputSteps a t c (s, .removeCursor xPos)
      (scrollUp a s xPos t, if isNewline c then .firstColumn else .done) := by
  apply OutputSteps.next
  rw [outputStep, ← Screen.moved_zero (if t = a then removeCursor s else s) t]
  refine (steps_movePage _ xPos (Nat.zero_add 3840)).trans ?_
  apply OutputSteps.next
  rw [outputStep]
  refine (steps_backspaces _ _).trans ?_
  apply OutputSteps.next
  rw [outputStep]
  apply OutputSteps.next
  rw [outputStep, scrollUp]
  exact .refl

/-- The statements after the cursor has moved on. -/
theorem steps_advance (hc : isNewline c = false) (s : Screen) :
    OutputSteps a t c (s, .nextRow) (advance a s t, .done) := by
  apply OutputSteps.next
  rw [outputStep, advance]
  by_cases hlast : s.screenX t = numCols ∧ s.screenY t = numRows - 1
  · rw [if_neg (not_not_intro hlast), if_neg (not_not_intro hlast)]
    have hscroll := steps_scrollUp (a := a) (t := t) (c := c) s numCols
    rw [hc, if_neg Bool.false_ne_true] at hscroll
    exact hscroll
  · rw [if_pos hlast, if_pos hlast]
    apply OutputSteps.next
    simp only [outputStep, Screen.setCursor, update_self, update_idem]
    exact .refl

/-- **Without a switch** the statements are `terminal_putc`. -/
theorem steps_terminalPutc (a t : Term) (c : Byte) (s : Screen) :
    OutputSteps a t c (s, .start) (terminalPutc a t s c, .done) := by
  apply OutputSteps.next
  rw [outputStep, terminalPutc]
  cases hc : isNewline c with
  | true =>
    rw [if_pos rfl, if_pos rfl, newline]
    apply OutputSteps.next
    rw [outputStep]
    split_ifs
    · have hscroll := steps_scrollUp (a := a) (t := t) (c := c)
      rw [hc, if_pos rfl] at hscroll
      exact (hscroll _ _).trans (OutputSteps.next .refl)
    · exact OutputSteps.next .refl
  | false =>
    rw [if_neg Bool.false_ne_true, if_neg Bool.false_ne_true]
    by_cases hat : a = t
    · apply OutputSteps.next
      rw [outputStep]
      apply OutputSteps.next
      rw [outputStep]
      apply OutputSteps.next
      rw [outputStep, if_pos hat]
      simp only [if_pos hat]
      exact steps_advance hc _
    · apply OutputSteps.next
      rw [outputStep]
      apply OutputSteps.next
      rw [outputStep]
      apply OutputSteps.next
      rw [outputStep, if_neg hat]
      simp only [if_neg hat]
      exact steps_advance hc _

/-! ## With switches -/

/-- The terminals while a process of one of them is in `terminal_putc`. -/
structure Output where
  tty : Tty
  pc : OutputPc

/-- The next statement, or Alt with a function key. The process tables are those at the moment of
the key press. -/
inductive OutputOp
  | step
  | altFn (k : Kernel) (fr : Frame) (key : Byte)

/-- The next statement in the terminals. -/
def Output.step (t : Term) (c : Byte) (o : Output) : Output :=
  let (scr, pc) := outputStep o.tty.active t c o.tty.scr o.pc
  ⟨{ o.tty with scr := scr }, pc⟩

/-- The visible characters are those of the page of terminal `a`. -/
def SameChars (m : ℤ → Byte) (a : Term) : Prop :=
  ∀ i : ℕ, i < 2000 → m (video + 2 * i) = m (pageBase a + 2 * i)

/-- The runs of one `terminal_putc` of `c` in a process of terminal `t`. It starts with the visible
characters those of the active terminal's page and with every cursor in the grid. -/
def outputLTS (m : Machine) (t : Term) (c : Byte) : LTS Output OutputOp where
  init o := o.pc = .start ∧ SameChars o.tty.scr.mem o.tty.active ∧ ∀ u, o.tty.scr.CursorInGrid u
  step o op o' :=
    match op with
    | .step => o' = o.step t c
    | .altFn k fr key => k.currentActiveTerminal = o.tty.active ∧
        switchKey o.tty.mods key ≠ none ∧ o' = ⟨(doHandleKeyboard m k fr o.tty key).2.2, o.pc⟩

/-- It starts so in every reached state of the terminals. -/
theorem outputLTS_init {m : Machine} {tty : Tty} (h : (ttyLTS m).Reach LTS.always tty) (t : Term)
    (c : Byte) : (outputLTS m t c).init ⟨tty, .start⟩ := by
  have hmirror : Mirrors tty.scr tty.active tty.con.currBuffPos :=
    mirrored_of_reach_always h
  exact ⟨rfl, hmirror.chars, hmirror.cursor⟩

/-- The screen is right when the character has been put: the visible characters are those of the
active terminal's page. -/
def OutputKept (o : Output) : Prop := o.pc = .done → SameChars o.tty.scr.mem o.tty.active

theorem OutputKept.done {tty : Tty} {s : Screen} (h : OutputKept ⟨{ tty with scr := s }, .done⟩) :
    SameChars s.mem tty.active := h rfl

/-- Between the first byte of the page moved and the move of the video memory. -/
def OutputPc.moving : OutputPc → Bool
  | .movePage _ i => 0 < i
  | .moveVideo _ => true
  | _ => false

/-- What has happened in a run: whether at the last switch the video memory was copied from a page
in the middle of its move, and whether `put_backspace` has stored its last blank in the page with
`t` the active terminal. -/
structure OutputNotes where
  shown : Bool
  own : Bool

/-- The notes after a statement. -/
def OutputNotes.step (notes : OutputNotes) (active t : Term) : OutputPc → OutputNotes
  | .backPage _ => { notes with own := active = t }
  | _ => notes

/-- The notes after a step. -/
def noteOutput (t : Term) (o : Output) (op : OutputOp) (o' : Output) (notes : OutputNotes) :
    OutputNotes :=
  match op with
  | .step => notes.step o.tty.active t o.pc
  | .altFn _ _ _ =>
    if o'.tty.active = o.tty.active then notes else { notes with shown := o.pc.moving }

/-- The runs with these notes. -/
def notedOutput (m : Machine) (t : Term) (c : Byte) : LTS (Output × OutputNotes) OutputOp :=
  (outputLTS m t c).history (fun _ => ⟨false, false⟩) (noteOutput t)

/-- The two statements are not reached after a switch that makes them wrong: the video memory is
moved up when it has not been copied from the page during its move, and the blank is stored in the
video memory when terminal `t` is the active one, and was when it was stored in the page. -/
def SwitchSafe (t : Term) (p : Output × OutputNotes) : OutputOp → Prop
  | .step =>
    (∀ xPos, p.1.pc = .moveVideo xPos → p.1.tty.active = t → p.2.shown = false) ∧
      ∀ n, p.1.pc = .backVideo n → p.1.tty.active = t ∧ p.2.own = true
  | .altFn _ _ _ => True

/-! ## What the switch does -/

/-- From `tty` to `tty'` either no text changes, or another terminal is shown. -/
def Switched (tty tty' : Tty) : Prop :=
  (tty'.active = tty.active ∧ tty'.scr.SameText tty.scr) ∨
    (tty'.active ≠ tty.active ∧
      ∃ s, s.SameText tty.scr ∧ tty'.scr.SameText (showTerminal s tty'.active))

theorem Switched.afterSwitch {tty tty' : Tty} (h : Switched tty tty') :
    Switched tty (afterSwitch tty') := by
  have hreset : (HieUnix.afterSwitch tty').scr.SameText tty'.scr := sameText_resetCursor tty'.scr
  rcases h with ⟨hactive, hsame⟩ | ⟨hne, s, hs, hshown⟩
  · exact .inl ⟨hactive, hreset.trans hsame⟩
  · exact .inr ⟨hne, s, hs, hreset.trans hshown⟩

theorem switched_changeScreen (k : Kernel) (tty : Tty) (key : Byte) (newNum : Term) :
    Switched tty (changeScreen k (acknowledge (madeKey tty key) kbIrqLine) newNum) := by
  have hbefore := sameText_beforeKey tty
  rw [changeScreen]
  split_ifs with hswitches
  · exact .inr ⟨hswitches.1.symm, _, hbefore, .refl _⟩
  · exact .inl ⟨rfl, hbefore⟩

theorem altFn_cases (m : Machine) (k : Kernel) (fr : Frame) {tty : Tty} {key : Byte}
    {newNum : Term} (hkey : switchKey tty.mods key = some newNum) :
    let tty₁ := changeScreen k (acknowledge (madeKey tty key) kbIrqLine) newNum
    (doHandleKeyboard m k fr tty key).2.2 = tty₁ ∨
      (doHandleKeyboard m k fr tty key).2.2 = afterSwitch tty₁ := by
  have halt : tty.mods.altFlag = true := by
    rw [switchKey] at hkey
    split_ifs at hkey with halt
    exact halt
  rw [switchKey, if_pos halt] at hkey
  exact doHandleKeyboard_of_switch m k fr halt hkey

/-- **What Alt with a function key does.** -/
theorem switched_altFn (m : Machine) (k : Kernel) (fr : Frame) {tty : Tty} {key : Byte}
    (hkey : switchKey tty.mods key ≠ none) :
    Switched tty (doHandleKeyboard m k fr tty key).2.2 := by
  obtain ⟨newNum, hnew⟩ := Option.ne_none_iff_exists'.mp hkey
  have hchange := switched_changeScreen k tty key newNum
  rcases altFn_cases m k fr hnew with htty | htty
  · rw [htty]
    exact hchange
  · rw [htty]
    exact hchange.afterSwitch

/-- The terminal that is asked for is shown when `change_video_mem` goes through with it. -/
theorem altFn_active (m : Machine) (k : Kernel) (fr : Frame) {tty : Tty} {key : Byte}
    {newNum : Term} (hkey : switchKey tty.mods key = some newNum)
    (hswitches : k.Switches tty.active newNum) :
    (doHandleKeyboard m k fr tty key).2.2.active = newNum := by
  have hchange : (changeScreen k (acknowledge (madeKey tty key) kbIrqLine) newNum).active
      = newNum := by
    have hmade : k.Switches (acknowledge (madeKey tty key) kbIrqLine).active newNum := hswitches
    rw [changeScreen, if_pos hmade]
  rcases altFn_cases m k fr hkey with htty | htty
  · rw [htty]
    exact hchange
  · rw [htty]
    exact hchange

/-! ## What holds at each statement -/

/-- A byte `v` has been stored in cell `k` of the page of terminal `t`, and not yet in the video
memory when that is the active terminal `a`. -/
structure Stored (m : ℤ → Byte) (a t : Term) (k : ℤ) (v : Byte) : Prop where
  page : m (pageBase t + 2 * k) = v
  chars : ∀ i : ℕ, i < 2000 → (a = t → (i : ℤ) ≠ k) →
    m (video + 2 * i) = m (pageBase a + 2 * i)

/-- The cell that cell `j` has come from when `i` bytes have been moved. -/
def movedFrom (i j : ℕ) : ℕ := if 2 * j < i then j + 80 else j

/-- The first `i` bytes of the page of terminal `t` have been moved, and the video memory is as
the page was before, unless it has been copied since. -/
structure Moved (m : ℤ → Byte) (a t : Term) (i : ℕ) (shown : Bool) : Prop where
  other : a ≠ t → SameChars m a
  own : a = t → shown = false → ∀ j : ℕ, j < 2000 →
    m (pageBase t + 2 * j) = m (video + 2 * movedFrom i j)

/-- The blank of a backspace has been stored in the page: in cell `k` when terminal `t` was the
active one. -/
structure Blanked (m : ℤ → Byte) (a t : Term) (k : ℤ) (own : Bool) : Prop where
  inPlace : own = true → Stored m a t k (chr ' ')
  stray : own = false → SameChars m a

/-- The cursor of terminal `t` is in columns `x₁` to `x₂` and rows `y₁` to `y₂`. -/
structure Screen.CursorIn (s : Screen) (t : Term) (x₁ x₂ y₁ y₂ : ℤ) : Prop where
  x : x₁ ≤ s.screenX t ∧ s.screenX t ≤ x₂
  y : y₁ ≤ s.screenY t ∧ s.screenY t ≤ y₂

/-- Where the cursor of terminal `t` is at each statement. -/
def CursorAt (t : Term) (s : Screen) : OutputPc → Prop
  | .lastRow => s.CursorIn t 0 79 1 25
  | .nextRow | .wrapColumn => s.CursorIn t 1 80 0 24
  | .removeCursor xPos | .moveVideo xPos =>
    0 ≤ xPos ∧ xPos ≤ 80 ∧ s.CursorIn t xPos xPos 24 24
  | .movePage xPos i => i ≤ 3840 ∧ 0 ≤ xPos ∧ xPos ≤ 80 ∧ s.CursorIn t xPos xPos 24 24
  | .backspace n => n ≤ 80 ∧ s.CursorIn t n n 24 24
  | .backPage n | .backTest n | .backVideo n | .backColumn n =>
    n < 80 ∧ s.CursorIn t (n + 1) (n + 1) 24 24
  | .bottomRow | .resetCursor => s.CursorIn t 0 0 24 24
  | .start | .firstColumn | .storeAttrib | .visible | .nextColumn | .done => s.CursorIn t 0 79 0 24

/-- What the visible characters are at each statement. -/
def CharsAt (t : Term) (c : Byte) (a : Term) (s : Screen) (notes : OutputNotes) : OutputPc → Prop
  | .storeAttrib | .visible => Stored s.mem a t (s.cursorCell t) c
  | .movePage _ i => Moved s.mem a t i notes.shown
  | .moveVideo _ => Moved s.mem a t 3840 notes.shown
  | .backTest n | .backVideo n => Blanked s.mem a t (1920 + n) notes.own
  | _ => SameChars s.mem a

/-- The invariant of the runs of `terminal_putc`. -/
structure OutputInv (t : Term) (c : Byte) (o : Output) (notes : OutputNotes) : Prop where
  others : ∀ u, u ≠ t → o.tty.scr.CursorInGrid u
  cursor : CursorAt t o.tty.scr o.pc
  chars : CharsAt t c o.tty.active o.tty.scr notes o.pc

/-! ## A switch keeps it -/

theorem Screen.CursorIn.cell_mem {x₁ x₂ y₁ y₂ : ℤ} (h : s.CursorIn t x₁ x₂ y₁ y₂) (hx : 0 ≤ x₁)
    (hx' : x₂ < 80) (hy : 0 ≤ y₁) (hy' : y₂ < 25) :
    0 ≤ s.cursorCell t ∧ s.cursorCell t < 2000 := by
  have hX := h.x
  have hY := h.y
  have hcell : s.cursorCell t = 80 * s.screenY t + s.screenX t := rfl
  omega

theorem Screen.CursorIn.congr {x₁ x₂ y₁ y₂ : ℤ} (h : s.CursorIn t x₁ x₂ y₁ y₂)
    (hX : s'.screenX = s.screenX) (hY : s'.screenY = s.screenY) :
    s'.CursorIn t x₁ x₂ y₁ y₂ := by
  refine ⟨?_, ?_⟩
  · rw [hX]
    exact h.x
  · rw [hY]
    exact h.y

theorem CursorAt.congr {pc : OutputPc} (h : CursorAt t s pc) (hX : s'.screenX = s.screenX)
    (hY : s'.screenY = s.screenY) : CursorAt t s' pc := by
  cases pc
  case removeCursor | moveVideo => exact ⟨h.1, h.2.1, h.2.2.congr hX hY⟩
  case movePage => exact ⟨h.1, h.2.1, h.2.2.1, h.2.2.2.congr hX hY⟩
  case backspace | backPage | backTest | backVideo | backColumn => exact ⟨h.1, h.2.congr hX hY⟩
  all_goals exact Screen.CursorIn.congr h hX hY

variable {m m' : ℤ → Byte} {k : ℤ} {v : Byte} {i : ℕ} {shown own : Bool} {notes : OutputNotes}
  {pc : OutputPc}

theorem SameChars.congr (h : SameChars m a) (hm : ∀ b, NotAttribute b → m' b = m b) :
    SameChars m' a := by
  intro i hi
  rw [hm _ (notAttribute_video i), hm _ (notAttribute_page a i)]
  exact h i hi

theorem Stored.congr (h : Stored m a t k v) (hm : ∀ b, NotAttribute b → m' b = m b) :
    Stored m' a t k v := by
  constructor
  · rw [hm _ (notAttribute_page t k)]
    exact h.page
  · intro i hi hne
    rw [hm _ (notAttribute_video i), hm _ (notAttribute_page a i)]
    exact h.chars i hi hne

theorem Moved.congr (h : Moved m a t i shown) (hm : ∀ b, NotAttribute b → m' b = m b) :
    Moved m' a t i shown := by
  constructor
  · intro hne
    exact (h.other hne).congr hm
  · intro hat hshown j hj
    rw [hm _ (notAttribute_page t j), hm _ (notAttribute_video _)]
    exact h.own hat hshown j hj

/-- A key that changes no text. -/
theorem CharsAt.congr (h : CharsAt t c a s notes pc) (hsame : s'.SameText s) :
    CharsAt t c a s' notes pc := by
  have hcell : s'.cursorCell t = s.cursorCell t := by
    rw [Screen.cursorCell, Screen.cursorCell, hsame.screenX, hsame.screenY]
  cases pc
  case storeAttrib | visible =>
    show Stored s'.mem a t (s'.cursorCell t) c
    rw [hcell]
    exact Stored.congr h hsame.mem
  case movePage | moveVideo => exact Moved.congr h hsame.mem
  case backTest | backVideo =>
    exact ⟨fun hown => (h.inPlace hown).congr hsame.mem, fun hown => (h.stray hown).congr hsame.mem⟩
  all_goals exact SameChars.congr h hsame.mem

theorem sameChars_showTerminal (s : Screen) (u : Term) : SameChars (showTerminal s u).mem u :=
  fun _ hi => showTerminal_chars s u hi

/-- Nothing has been moved yet. -/
theorem SameChars.movedZero (h : SameChars m a) : Moved m a t 0 shown := by
  refine ⟨fun _ => h, ?_⟩
  rintro rfl - j hj
  rw [movedFrom, if_neg (Nat.not_lt_zero _)]
  exact (h j hj).symm

/-- Another terminal is shown: its characters are seen, and the pages are as they were. -/
theorem CharsAt.otherShown (h : CharsAt t c a s notes pc) (hcursor : CursorAt t s pc)
    (hcell : s'.cursorCell t = s.cursorCell t)
    (hpage : ∀ k : ℤ, 0 ≤ k → s'.mem (pageBase t + 2 * k) = s.mem (pageBase t + 2 * k))
    (hchars : SameChars s'.mem u) : CharsAt t c u s' { notes with shown := pc.moving } pc := by
  have hmoved : ∀ i : ℕ, Moved s'.mem u t i (decide (0 < i)) := by
    intro i
    cases i with
    | zero => exact hchars.movedZero
    -- from the first byte on nothing is known of the two copies together
    | succ i => exact ⟨fun _ => hchars, fun _ hnone => by simp at hnone⟩
  cases pc
  case storeAttrib | visible =>
    have hmem := Screen.CursorIn.cell_mem hcursor (by decide) (by decide) (by decide) (by decide)
    show Stored s'.mem u t (s'.cursorCell t) c
    rw [hcell]
    exact ⟨(hpage _ hmem.1).trans h.page, fun i hi _ => hchars i hi⟩
  case movePage xPos i => exact hmoved i
  case moveVideo => exact hmoved 3840
  case backTest | backVideo =>
    refine ⟨fun hown => ⟨?_, fun i hi _ => hchars i hi⟩, fun _ => hchars⟩
    exact (hpage _ (by omega)).trans (h.inPlace hown).page
  all_goals exact hchars

/-- **A switch keeps the invariant.** -/
theorem OutputInv.switched {o : Output} {tty' : Tty} (h : OutputInv t c o notes)
    (hswitched : Switched o.tty tty') :
    OutputInv t c ⟨tty', o.pc⟩ (if tty'.active = o.tty.active then notes
      else { notes with shown := o.pc.moving }) := by
  have hgrid : ∀ s : Screen, s.screenX = o.tty.scr.screenX → s.screenY = o.tty.scr.screenY →
      ∀ u, u ≠ t → s.CursorInGrid u := by
    intro s hX hY u hu
    exact (h.others u hu).congr (congrFun hX u) (congrFun hY u)
  rcases hswitched with ⟨hactive, hsame⟩ | ⟨hne, s, hs, hshown⟩
  · rw [if_pos hactive]
    refine ⟨hgrid _ hsame.screenX hsame.screenY, h.cursor.congr hsame.screenX hsame.screenY, ?_⟩
    show CharsAt t c tty'.active _ _ _
    rw [hactive]
    exact CharsAt.congr h.chars hsame
  · have hX : tty'.scr.screenX = o.tty.scr.screenX := hshown.screenX.trans hs.screenX
    have hY : tty'.scr.screenY = o.tty.scr.screenY := hshown.screenY.trans hs.screenY
    rw [if_neg hne]
    refine ⟨hgrid _ hX hY, h.cursor.congr hX hY, CharsAt.otherShown h.chars h.cursor ?_ ?_ ?_⟩
    · show (80 : ℤ) * tty'.scr.screenY t + tty'.scr.screenX t
        = 80 * o.tty.scr.screenY t + o.tty.scr.screenX t
      rw [hX, hY]
    · intro k hk
      have hpage := pageBase_eq t
      show tty'.scr.mem _ = _
      rw [hshown.mem _ (notAttribute_page t k), ← hs.mem _ (notAttribute_page t k)]
      exact showTerminal_mem_of_outside _ (.inr (by omega))
    · exact (sameChars_showTerminal s _).congr hshown.mem

/-! ## A statement keeps it -/

/-- A store that is no visible character and none of the page of `a`. -/
theorem SameChars.update (h : SameChars m a) {b : ℤ}
    (hb : ∀ i : ℕ, i < 2000 → b ≠ video + 2 * i ∧ b ≠ pageBase a + 2 * i) (v : Byte) :
    SameChars (update m b v) a := by
  intro i hi
  rw [update_of_ne (hb i hi).1.symm, update_of_ne (hb i hi).2.symm]
  exact h i hi

/-- A store of a character in the page of terminal `t`. -/
theorem SameChars.storePage (h : SameChars m a) (hk : 0 ≤ k ∧ k < 2000) (v : Byte) :
    Stored (Function.update m (pageBase t + 2 * k) v) a t k v := by
  have ht := pageBase_eq t
  have ha := pageBase_eq a
  refine ⟨update_self _ _ _, ?_⟩
  intro i hi hne
  have hpage : pageBase a + 2 * (i : ℤ) ≠ pageBase t + 2 * k := by
    by_cases hat : a = t
    · have hik := hne hat
      rw [hat]
      omega
    · have hval := Fin.val_ne_of_ne hat
      omega
  rw [update_of_ne (by omega), update_of_ne hpage]
  exact h i hi

/-- The page of another terminal is out of sight, the cell before it too. -/
theorem SameChars.storeOther (h : SameChars m a) (hne : a ≠ t) (hk : -1 ≤ k ∧ k < 2000) (v : Byte) :
    SameChars (Function.update m (pageBase t + 2 * k) v) a := by
  have ht := pageBase_eq t
  have ha := pageBase_eq a
  have hval := Fin.val_ne_of_ne hne
  apply h.update
  intro i hi
  omega

/-- The byte is stored in the video memory too. -/
theorem Stored.settle (h : Stored m t t k v) (hk : 0 ≤ k ∧ k < 2000) :
    SameChars (update m (video + 2 * k) v) t := by
  have ht := pageBase_eq t
  intro i hi
  rw [update_of_ne (a := pageBase t + 2 * i) (by omega)]
  by_cases hik : (i : ℤ) = k
  · rw [hik, update_self]
    exact h.page.symm
  · rw [update_of_ne (by omega)]
    exact h.chars i hi fun _ => hik

theorem Stored.of_ne (h : Stored m a t k v) (hne : a ≠ t) : SameChars m a :=
  fun i hi => h.chars i hi fun hat => absurd hat hne

/-- The attribute bytes of the page. -/
theorem Stored.updateAttrib (h : Stored m a t k v) (j : ℤ) (w : Byte) :
    Stored (update m (pageBase t + 2 * j + 1) w) a t k v := by
  have ht := pageBase_eq t
  have ha := pageBase_eq a
  constructor
  · rw [update_of_ne (by omega)]
    exact h.page
  · intro i hi hne
    rw [update_of_ne (by omega), update_of_ne (by omega)]
    exact h.chars i hi hne

/-- The next byte of the page is moved. -/
theorem Moved.step (h : Moved m a t i shown) (hi : i < 3840) :
    Moved (update m (pageBase t + i) (m (pageBase t + 160 + i))) a t (i + 1) shown := by
  have ht := pageBase_eq t
  constructor
  · intro hne
    have ha := pageBase_eq a
    have hval := Fin.val_ne_of_ne hne
    apply (h.other hne).update
    intro j hj
    omega
  · intro hat hshown j hj
    have hvideo : video + 2 * (movedFrom (i + 1) j : ℤ) ≠ pageBase t + i := by
      rw [movedFrom]
      split_ifs <;> omega
    rw [update_of_ne hvideo]
    by_cases hij : 2 * j = i
    · -- the byte has come from the row below, which is still in place
      have hsrc := h.own hat hshown (j + 80) (by omega)
      rw [movedFrom, if_neg (by omega)] at hsrc
      have hdest : pageBase t + 2 * (j : ℤ) = pageBase t + i := by omega
      have hfrom : pageBase t + 160 + (i : ℤ) = pageBase t + 2 * ((j + 80 : ℕ) : ℤ) := by omega
      rw [hdest, update_self, hfrom, movedFrom, if_pos (by omega)]
      exact hsrc
    · rw [update_of_ne (by omega), h.own hat hshown j hj, movedFrom, movedFrom]
      congr 3
      simp only [show 2 * j < i ↔ 2 * j < i + 1 by omega]

/-- The rows of the video memory are moved like those of the page. -/
theorem Moved.moveVideo (h : Moved m t t 3840 false) :
    SameChars (memmove m video (video + 160) 3840) t := by
  have ht := pageBase_eq t
  intro i hi
  have hpage : memmove m video (video + 160) 3840 (pageBase t + 2 * i)
      = m (pageBase t + 2 * i) := if_neg (by omega)
  rw [hpage, h.own rfl rfl i hi, movedFrom]
  by_cases hlt : 2 * i < 3840
  · have hsrc : video + 160 + (video + 2 * (i : ℤ) - video) = video + 2 * ((i + 80 : ℕ) : ℤ) := by
      omega
    rw [if_pos hlt, memmove, if_pos (by omega), hsrc]
  · rw [if_neg hlt, memmove, if_neg (by omega)]

theorem Screen.cursorIn_setCursor {x y x₁ x₂ y₁ y₂ : ℤ} (s : Screen) (t : Term)
    (hx : x₁ ≤ x ∧ x ≤ x₂) (hy : y₁ ≤ y ∧ y ≤ y₂) :
    (s.setCursor t x y).CursorIn t x₁ x₂ y₁ y₂ := by
  refine ⟨?_, ?_⟩
  · show x₁ ≤ update s.screenX t x t ∧ update s.screenX t x t ≤ x₂
    rw [update_self]
    exact hx
  · show y₁ ≤ update s.screenY t y t ∧ update s.screenY t y t ≤ y₂
    rw [update_self]
    exact hy

theorem sameText_removeCursor (s : Screen) : (removeCursor s).SameText s :=
  sameText_updateAttribute s.mouse.pos_lt 0

/-- **Where a statement leaves the cursor.** -/
theorem CursorAt.step (h : CursorAt t s pc) (a : Term) (c : Byte) :
    CursorAt t (outputStep a t c s pc).1 (outputStep a t c s pc).2 := by
  cases pc with
  | start =>
    have hx := h.x
    have hy := h.y
    rw [outputStep]
    split_ifs
    · exact s.cursorIn_setCursor t hx ⟨by omega, by omega⟩
    · exact ⟨hx, hy⟩
  | lastRow =>
    have hx := h.x
    have hy := h.y
    rw [outputStep]
    split_ifs with hlast
    · rw [Nat.cast_ofNat] at hlast
      refine ⟨hx.1, by omega, s.cursorIn_setCursor t ⟨by omega, by omega⟩ ⟨by omega, by omega⟩⟩
    · rw [Nat.cast_ofNat] at hlast
      refine ⟨hx, ?_⟩
      show 0 ≤ s.screenY t ∧ s.screenY t ≤ 24
      omega
  | firstColumn => exact s.cursorIn_setCursor t (by omega) h.y
  | storeAttrib => exact ⟨h.x, h.y⟩
  | visible =>
    rw [outputStep]
    split_ifs <;> exact ⟨h.x, h.y⟩
  | nextColumn =>
    have hx := h.x
    exact s.cursorIn_setCursor t ⟨by omega, by omega⟩ h.y
  | nextRow =>
    have hx := h.x
    have hy := h.y
    rw [outputStep]
    by_cases hlast : s.screenX t = numCols ∧ s.screenY t = numRows - 1
    · rw [if_neg (not_not_intro hlast)]
      obtain ⟨hx80, hy24⟩ := hlast
      rw [Nat.cast_ofNat] at hx80 hy24
      refine ⟨by decide, by decide, ⟨?_, ?_⟩⟩
      · show 80 ≤ s.screenX t ∧ s.screenX t ≤ 80
        omega
      · show 24 ≤ s.screenY t ∧ s.screenY t ≤ 24
        omega
    · rw [if_pos hlast]
      -- the row after the line break, which the remainder keeps on the screen
      have hrow : 0 ≤ (s.screenY t + (s.screenX t).tdiv numCols).tmod numRows
          ∧ (s.screenY t + (s.screenX t).tdiv numCols).tmod numRows ≤ 24 := by
        rw [Nat.cast_ofNat, Nat.cast_ofNat, Int.tdiv_eq_ediv_of_nonneg (by omega),
          Int.tmod_eq_emod_of_nonneg (by omega)]
        omega
      exact s.cursorIn_setCursor t hx hrow
  | wrapColumn =>
    have hx := h.x
    -- column 80 becomes column 0
    have hcolumn : 0 ≤ (s.screenX t).tmod numCols ∧ (s.screenX t).tmod numCols ≤ 79 := by
      rw [Nat.cast_ofNat, Int.tmod_eq_emod_of_nonneg (by omega)]
      omega
    exact s.cursorIn_setCursor t hcolumn h.y
  | removeCursor xPos =>
    obtain ⟨h0, h80, hin⟩ := h
    have hsame := sameText_removeCursor s
    refine ⟨Nat.zero_le _, h0, h80, ?_⟩
    rw [outputStep]
    dsimp only
    split_ifs
    · exact hin.congr hsame.screenX hsame.screenY
    · exact hin
  | movePage xPos i =>
    rw [outputStep]
    split_ifs with hlt
    · exact ⟨hlt, h.2.1, h.2.2.1, ⟨h.2.2.2.x, h.2.2.2.y⟩⟩
    · exact h.2
  | moveVideo xPos =>
    obtain ⟨h0, h80, hin⟩ := h
    refine ⟨by omega, ?_⟩
    rw [Int.toNat_of_nonneg h0, outputStep]
    split_ifs <;> exact ⟨hin.x, hin.y⟩
  | backspace n =>
    cases n with
    | zero => exact h.2
    | succ n =>
      obtain ⟨hle, hin⟩ := h
      have hx := hin.x
      -- the backspaces are no more than the column, so that each has one to go back
      have hpos : ¬ s.screenX t ≤ 0 := by omega
      rw [outputStep, if_neg hpos]
      exact ⟨hle, hin⟩
  | backPage n => exact ⟨h.1, ⟨h.2.x, h.2.y⟩⟩
  | backTest n =>
    rw [outputStep]
    split_ifs <;> exact h
  | backVideo n => exact ⟨h.1, ⟨h.2.x, h.2.y⟩⟩
  | backColumn n =>
    have hx := h.2.x
    exact ⟨Nat.le_of_lt h.1, s.cursorIn_setCursor t ⟨by omega, by omega⟩ h.2.y⟩
  | bottomRow => exact s.cursorIn_setCursor t h.x (by decide)
  | resetCursor =>
    have hsame := sameText_resetCursor s
    have hx := h.x
    have hy := h.y
    have hin : s.CursorIn t 0 79 0 24 := ⟨by omega, by omega⟩
    have hafter : (if t = a then resetCursor s else s).CursorIn t 0 79 0 24 := by
      split_ifs
      · exact hin.congr hsame.screenX hsame.screenY
      · exact hin
    rw [outputStep]
    split_ifs at hafter ⊢ <;> exact hafter
  | done => exact h

/-- The cell of a backspace in the loop of `scroll_up`, when the terminal is the active one. -/
theorem Screen.CursorIn.backCell_eq {n : ℕ} (h : s.CursorIn t (n + 1) (n + 1) 24 24) :
    s.backCell t = 1920 + n := by
  have hx := h.x
  have hy := h.y
  have hcell : s.backCell t = 80 * s.screenY t + (s.screenX t - 1) := rfl
  omega

/-- **What a statement makes of the characters.** -/
theorem CharsAt.step (h : CharsAt t c a s notes pc) (hcursor : CursorAt t s pc)
    (hgrid : a ≠ t → s.CursorInGrid a)
    (hvideo : ∀ xPos, pc = .moveVideo xPos → a = t → notes.shown = false)
    (hback : ∀ n, pc = .backVideo n → a = t ∧ notes.own = true) :
    CharsAt t c a (outputStep a t c s pc).1 (notes.step a t pc) (outputStep a t c s pc).2 := by
  cases pc with
  | start =>
    have hmem := Screen.CursorIn.cell_mem hcursor (by decide) (by decide) (by decide) (by decide)
    rw [outputStep]
    split_ifs
    · exact h
    · exact SameChars.storePage h hmem c
  | lastRow =>
    rw [outputStep]
    split_ifs <;> exact h
  | firstColumn => exact h
  | storeAttrib => exact Stored.updateAttrib h _ _
  | visible =>
    have hmem := Screen.CursorIn.cell_mem hcursor (by decide) (by decide) (by decide) (by decide)
    have hpage := pageBase_eq a
    rw [outputStep]
    dsimp only
    split_ifs with hat
    · subst hat
      apply SameChars.update (Stored.settle h hmem)
      intro i hi
      omega
    · exact Stored.of_ne h hat
  | nextColumn => exact h
  | nextRow =>
    rw [outputStep]
    split_ifs <;> exact h
  | wrapColumn => exact h
  | removeCursor xPos =>
    rw [outputStep]
    dsimp only
    split_ifs
    · exact (SameChars.congr h (sameText_removeCursor s).mem).movedZero
    · exact SameChars.movedZero h
  | movePage xPos i =>
    rw [outputStep]
    split_ifs with hlt
    · exact Moved.step h hlt
    · have hend : i = 3840 := Nat.le_antisymm hcursor.1 (Nat.le_of_not_lt hlt)
      subst hend
      exact h
  | moveVideo xPos =>
    rw [outputStep]
    dsimp only
    split_ifs with hat
    · subst hat
      have hmoved : Moved s.mem a a 3840 notes.shown := h
      rw [hvideo xPos rfl rfl] at hmoved
      exact hmoved.moveVideo
    · exact h.other hat
  | backspace n =>
    cases n with
    | zero => exact h
    | succ n =>
      rw [outputStep]
      split_ifs <;> exact h
  | backPage n =>
    obtain ⟨hlt, hin⟩ := hcursor
    -- the index is that of the own cursor only when the terminal is the active one
    by_cases hat : a = t
    · subst hat
      refine ⟨fun _ => ?_, fun hown => ?_⟩
      · show Stored (update s.mem (pageBase a + 2 * s.backCell a) _) a a _ _
        rw [hin.backCell_eq]
        exact SameChars.storePage h (by omega) _
      · simp [OutputNotes.step] at hown
    · refine ⟨fun hown => ?_, fun _ => ?_⟩
      · simp [OutputNotes.step, hat] at hown
      · have hx := (hgrid hat).x
        have hy := (hgrid hat).y
        have hcell : s.backCell a = 80 * s.screenY a + (s.screenX a - 1) := rfl
        exact SameChars.storeOther h hat (by omega) _
  | backTest n =>
    rw [outputStep]
    split_ifs with hta
    · exact h
    · -- the terminal is out of sight, so that its page does not matter
      have hne : a ≠ t := fun hat => hta hat.symm
      cases hown : notes.own with
      | true => exact (h.inPlace hown).of_ne hne
      | false => exact h.stray hown
  | backVideo n =>
    obtain ⟨hat, hown⟩ := hback n rfl
    subst hat
    have hstored : Stored s.mem a a (1920 + n) (chr ' ') := h.inPlace hown
    have hlt := hcursor.1
    show SameChars (update s.mem (video + 2 * s.backCell a) _) a
    rw [hcursor.2.backCell_eq]
    exact hstored.settle (by omega)
  | backColumn n => exact h
  | bottomRow => exact h
  | resetCursor =>
    have hafter : SameChars (if t = a then resetCursor s else s).mem a := by
      split_ifs
      · exact SameChars.congr h (sameText_resetCursor s).mem
      · exact h
    rw [outputStep]
    cases isNewline c <;> exact hafter
  | done => exact h

/-- A statement moves no cursor of another terminal. -/
theorem outputStep_others (a : Term) (c : Byte) (s : Screen) (pc : OutputPc) (hu : u ≠ t) :
    (outputStep a t c s pc).1.screenX u = s.screenX u
      ∧ (outputStep a t c s pc).1.screenY u = s.screenY u := by
  have hset : ∀ x y, (s.setCursor t x y).screenX u = s.screenX u
      ∧ (s.setCursor t x y).screenY u = s.screenY u :=
    fun x y => ⟨update_of_ne hu _ _, update_of_ne hu _ _⟩
  have hremove := sameText_removeCursor s
  have hreset := sameText_resetCursor s
  cases pc with
  | start | lastRow | nextRow | movePage =>
    rw [outputStep]
    split_ifs <;> first | exact hset _ _ | exact ⟨rfl, rfl⟩
  | visible | moveVideo | backTest =>
    rw [outputStep]
    split_ifs <;> exact ⟨rfl, rfl⟩
  | removeCursor =>
    rw [outputStep]
    split_ifs
    · exact ⟨congrFun hremove.screenX u, congrFun hremove.screenY u⟩
    · exact ⟨rfl, rfl⟩
  | resetCursor =>
    rw [outputStep]
    split_ifs <;> first
      | exact ⟨congrFun hreset.screenX u, congrFun hreset.screenY u⟩
      | exact ⟨rfl, rfl⟩
  | backspace n =>
    cases n with
    | zero => exact ⟨rfl, rfl⟩
    | succ n =>
      rw [outputStep]
      split_ifs <;> first | exact hset _ _ | exact ⟨rfl, rfl⟩
  | firstColumn | nextColumn | wrapColumn | backColumn | bottomRow => exact hset _ _
  | storeAttrib | backPage | backVideo | done => exact ⟨rfl, rfl⟩

/-- **A statement keeps the invariant** unless it is one of the two after a wrong switch. -/
theorem OutputInv.step {o : Output} (h : OutputInv t c o notes)
    (hsafe : SwitchSafe t (o, notes) .step) :
    OutputInv t c (o.step t c) (notes.step o.tty.active t o.pc) := by
  have hgrid : o.tty.active ≠ t → o.tty.scr.CursorInGrid o.tty.active := h.others _
  refine ⟨?_, CursorAt.step h.cursor _ c, CharsAt.step h.chars h.cursor hgrid hsafe.1 hsafe.2⟩
  intro u hu
  obtain ⟨hX, hY⟩ := outputStep_others o.tty.active c o.tty.scr o.pc hu
  exact (h.others u hu).congr hX hY

/-! ## Runs -/

theorem outputInv_of_reach {m : Machine} {p : Output × OutputNotes}
    (h : (notedOutput m t c).Reach (SwitchSafe t) p) : OutputInv t c p.1 p.2 := by
  apply h.invariant
  · rintro ⟨⟨tty, pc⟩, notes⟩ ⟨⟨hpc, hchars, hgrid⟩, -⟩
    obtain rfl : pc = .start := hpc
    have hx := (hgrid t).x
    have hy := (hgrid t).y
    exact ⟨fun u _ => hgrid u, ⟨by omega, by omega⟩, hchars⟩
  · rintro ⟨o, notes⟩ op ⟨o', notes'⟩ hinv hsafe ⟨hstep, hnotes⟩
    dsimp only at hinv hstep hnotes ⊢
    rw [hnotes]
    cases op with
    | step =>
      obtain rfl : o' = o.step t c := hstep
      exact hinv.step hsafe
    | altFn k fr key =>
      obtain ⟨-, hkey, rfl⟩ := hstep
      exact hinv.switched (switched_altFn m k fr hkey)

/-- **Switches during output.** In every run of one `terminal_putc`, with any number of switches
anywhere between its statements, in which the move of the video memory does not come after a switch
to the terminal in the middle of the move of its page, and no blank of `put_backspace` is stored in
the video memory after a switch: when the character has been put, the visible characters are those
of the terminal then active. -/
theorem outputKept_of_safe (m : Machine) (t : Term) (c : Byte) {p : Output × OutputNotes}
    (h : (notedOutput m t c).Reach (SwitchSafe t) p) : OutputKept p.1 := by
  intro hdone
  have hinv := outputInv_of_reach h
  have hchars : CharsAt t c p.1.tty.active p.1.tty.scr p.2 p.1.pc := hinv.chars
  rw [hdone] at hchars
  exact hchars

/-! ## A switch in the middle of scrolling -/

/-- Statements without a switch. -/
theorem reach_steps {m : Machine} (tty : Tty) {p p' : Screen × OutputPc}
    (h : (outputLTS m t c).Reach LTS.always ⟨{ tty with scr := p.1 }, p.2⟩)
    (hsteps : OutputSteps tty.active t c p p') :
    (outputLTS m t c).Reach LTS.always ⟨{ tty with scr := p'.1 }, p'.2⟩ := by
  induction hsteps with
  | refl => exact h
  | tail _ hstep ih =>
    refine .step ih trivial (a := .step) ?_
    rw [hstep]
    rfl

/-- A newline in the bottom row of terminal 0, behind the screen of terminal 1. There is one
character on the page, in its third row. -/
def sampleBottom : Tty where
  con := { bootConsole with currentActiveTerminal := 1 }
  scr :=
    { mem := fun b => if b = pageBase 0 + 320 then chr 'x' else chr ' '
      screenX := fun _ => 0
      screenY := fun u => if u = 0 then 24 else 0
      currVidMem := pageBase 1
      mouse := mouseInit }
  pic := entryPic
  mods := ⟨false, false, false, true⟩

/-- The page has been moved. -/
def sampleMovedPage : Screen :=
  ((sampleBottom.scr.setCursor 0 0 25).setCursor 0 0 24).moved 0 3840

/-- Alt and F1, before the video memory is moved. -/
def sampleShown : Tty :=
  (doHandleKeyboard sampleMachine sampleTicked (Frame.top 0)
    { sampleBottom with scr := sampleMovedPage } 59).2.2

/-- The video memory has been moved as well, and the pointer drawn. -/
def sampleRedrawn (s : Screen) : Screen :=
  let s := { s with mem := memmove s.mem video (video + 160) 3840 }
  resetCursor (s.setCursor 0 (s.screenX 0) 24)

theorem sampleBottom_steps :
    OutputSteps 1 0 (chr '\n') (sampleBottom.scr, .start) (sampleMovedPage, .moveVideo 0) := by
  have hmove := steps_movePage (a := 1) (t := 0) (c := chr '\n')
    ((sampleBottom.scr.setCursor 0 0 25).setCursor 0 0 24) 0 (Nat.zero_add 3840)
  rw [Screen.moved_zero] at hmove
  apply OutputSteps.next
  rw [outputStep, if_pos (by decide)]
  apply OutputSteps.next
  rw [outputStep, if_pos (by decide)]
  apply OutputSteps.next
  rw [outputStep, if_neg (by decide)]
  exact hmove

theorem sampleRedrawn_steps (s : Screen) :
    OutputSteps 0 0 (chr '\n') (s, .moveVideo 0)
      ((sampleRedrawn s).setCursor 0 0 ((sampleRedrawn s).screenY 0), .done) := by
  apply OutputSteps.next
  rw [outputStep, if_pos rfl]
  apply OutputSteps.next
  apply OutputSteps.next
  apply OutputSteps.next
  rw [outputStep, if_pos rfl, if_pos (by decide)]
  apply OutputSteps.next
  exact .refl

theorem sampleShown_active : sampleShown.active = 0 :=
  altFn_active sampleMachine sampleTicked (Frame.top 0) rfl (by decide)

/-- What was on the page of terminal 0 is on the screen. -/
theorem sampleShown_shows :
    ∃ s, s.SameText sampleMovedPage ∧ sampleShown.scr.SameText (showTerminal s 0) := by
  have hactive := sampleShown_active
  have hswitched : Switched { sampleBottom with scr := sampleMovedPage } sampleShown :=
    switched_altFn sampleMachine sampleTicked (Frame.top 0) (by decide)
  rcases hswitched with ⟨hsame, -⟩ | ⟨-, s, hs, hshown⟩
  · rw [hactive] at hsame
    exact absurd hsame (by decide)
  · rw [hactive] at hshown
    exact ⟨s, hs, hshown⟩

theorem sampleMovedPage_mem {k : ℤ} (hk : 0 ≤ k ∧ k < 1920) :
    sampleMovedPage.mem (pageBase 0 + 2 * k) = if k = 80 then chr 'x' else chr ' ' := by
  have hmoved : sampleMovedPage.mem (pageBase 0 + 2 * k)
      = sampleBottom.scr.mem (pageBase 0 + 160 + (pageBase 0 + 2 * k - pageBase 0)) :=
    if_pos (by omega)
  have hiff : pageBase 0 + 160 + (pageBase 0 + 2 * k - pageBase 0) = pageBase 0 + 320 ↔ k = 80 := by
    omega
  rw [hmoved]
  show (if _ = pageBase 0 + 320 then chr 'x' else chr ' ') = _
  simp only [hiff]

/-- The character is in the first row of the screen, and in the second one of the page. -/
theorem sampleRedrawn_mem {s s₀ : Screen} (hs₀ : s₀.SameText sampleMovedPage)
    (hshown : s.SameText (showTerminal s₀ 0)) :
    (sampleRedrawn s).mem (video + 2 * (0 : ℕ)) = chr 'x'
      ∧ (sampleRedrawn s).mem (pageBase 0 + 2 * (0 : ℕ)) = chr ' ' := by
  have hbase := pageBase_eq 0
  have hmem : ∀ b, NotAttribute b →
      (sampleRedrawn s).mem b = memmove s.mem video (video + 160) 3840 b :=
    fun b hb => (sameText_resetCursor _).mem b hb
  have hpage : ∀ k : ℕ, k < 1920 →
      (showTerminal s₀ 0).mem (pageBase 0 + 2 * k) = if (k : ℤ) = 80 then chr 'x' else chr ' ' := by
    intro k hk
    rw [showTerminal_mem_of_outside 0 (.inr (by omega)), hs₀.mem _ (notAttribute_page 0 k)]
    exact sampleMovedPage_mem (by omega)
  have hrow := sameChars_showTerminal s₀ 0 80 (by decide)
  constructor
  · have hsrc : video + 160 + (video + 2 * ((0 : ℕ) : ℤ) - video) = video + 2 * ((80 : ℕ) : ℤ) := by
      omega
    rw [hmem _ (notAttribute_video _), memmove, if_pos (by omega), hsrc,
      hshown.mem _ (notAttribute_video _), hrow, hpage 80 (by decide)]
    rfl
  · rw [hmem _ (notAttribute_page 0 _), memmove, if_neg (by omega),
      hshown.mem _ (notAttribute_page 0 _), hpage 0 (by decide)]
    rfl

theorem sampleBottom_chars : SameChars sampleBottom.scr.mem 1 := by
  have h0 := pageBase_eq 0
  have h1 := pageBase_eq 1
  have hval : ((0 : Term).val : ℤ) = 0 ∧ ((1 : Term).val : ℤ) = 1 := by decide
  have hblank : ∀ b, b ≠ pageBase 0 + 320 → sampleBottom.scr.mem b = chr ' ' :=
    fun b hb => if_neg hb
  intro i hi
  rw [hblank _ (by omega), hblank _ (by omega)]

theorem sampleBottom_init (c : Byte) :
    (outputLTS sampleMachine 0 c).init ⟨sampleBottom, .start⟩ := by
  refine ⟨rfl, sampleBottom_chars, fun u => ⟨?_, ?_⟩⟩
  · show (0 : ℤ) ≤ 0 ∧ (0 : ℤ) < 80
    decide
  · show (0 : ℤ) ≤ (if u = 0 then 24 else 0) ∧ (if u = 0 then 24 else 0) < (25 : ℤ)
    split_ifs <;> decide

/-- The screen has been scrolled twice. -/
theorem not_outputKept_sampleRedrawn :
    ∃ o, (outputLTS sampleMachine 0 (chr '\n')).Reach LTS.always o ∧ ¬ OutputKept o := by
  have hmoved := reach_steps sampleBottom (.init (sampleBottom_init (chr '\n')))
    sampleBottom_steps
  have hshown : (outputLTS sampleMachine 0 (chr '\n')).Reach LTS.always
      ⟨sampleShown, .moveVideo 0⟩ :=
    .step hmoved trivial (a := .altFn sampleTicked (Frame.top 0) 59) ⟨by decide, by decide, rfl⟩
  have hsteps := sampleRedrawn_steps sampleShown.scr
  rw [← sampleShown_active] at hsteps
  refine ⟨_, reach_steps sampleShown hshown hsteps, ?_⟩
  intro hkept
  obtain ⟨s₀, hs₀, hshown⟩ := sampleShown_shows
  have hmem := sampleRedrawn_mem hs₀ hshown
  have hchars := hkept.done
  rw [sampleShown_active] at hchars
  generalize sampleRedrawn sampleShown.scr = s at hmem hchars
  have hcell := hchars 0 (by decide)
  change s.mem _ = s.mem _ at hcell
  rw [hmem.1, hmem.2] at hcell
  exact absurd hcell (by decide)

/-! ## Switches that do no harm -/

/-- The next statement, and the notes after it. -/
def nextNoted (t : Term) (c : Byte) (p : Output × OutputNotes) : Output × OutputNotes :=
  (p.1.step t c, p.2.step p.1.tty.active t p.1.pc)

theorem reach_next {m : Machine} {p : Output × OutputNotes}
    (h : (notedOutput m t c).Reach (SwitchSafe t) p) (hsafe : SwitchSafe t p .step) :
    (notedOutput m t c).Reach (SwitchSafe t) (nextNoted t c p) :=
  .step h hsafe (a := .step) ⟨rfl, rfl⟩

/-- A statement that is neither of the two. -/
theorem switchSafe_of_pc {p : Output × OutputNotes} (hvideo : ∀ xPos, p.1.pc ≠ .moveVideo xPos)
    (hback : ∀ n, p.1.pc ≠ .backVideo n) : SwitchSafe t p .step :=
  ⟨fun xPos h => absurd h (hvideo xPos), fun n h => absurd h (hback n)⟩

/-- The bytes of the page that are still to move. -/
theorem reach_movePage {m : Machine} {tty : Tty} {notes : OutputNotes} {xPos : ℤ} {i d : ℕ}
    (hd : i + d = 3840) (h : (notedOutput m t c).Reach (SwitchSafe t)
      (⟨{ tty with scr := s.moved t i }, .movePage xPos i⟩, notes)) :
    (notedOutput m t c).Reach (SwitchSafe t)
      (⟨{ tty with scr := s.moved t 3840 }, .moveVideo xPos⟩, notes) := by
  induction d generalizing i with
  | zero =>
    obtain rfl : i = 3840 := hd
    exact reach_next h (switchSafe_of_pc nofun nofun)
  | succ d ih =>
    have hlt : i < movedBytes := Nat.lt_of_lt_of_le (by omega : i < 3840) (Nat.le_refl _)
    have hbelow : pageBase t < pageBase t + 2 * (numCols : ℤ) :=
      Int.lt_add_of_pos_right _ (by decide)
    have hnext := reach_next h (switchSafe_of_pc nofun nofun)
    rw [nextNoted, Output.step, outputStep, if_pos hlt, Screen.store, Screen.moved] at hnext
    dsimp only at hnext
    rw [memmove_succ hbelow] at hnext
    exact ih (by omega) hnext

/-- As before, with the cursor in the second column. -/
def sampleColumn : Tty :=
  { sampleBottom with
    scr := { sampleBottom.scr with screenX := fun u => if u = 0 then 1 else 0 } }

theorem sampleColumn_init (c : Byte) :
    (outputLTS sampleMachine 0 c).init ⟨sampleColumn, .start⟩ := by
  refine ⟨rfl, sampleBottom_chars, fun u => ⟨?_, ?_⟩⟩
  · show (0 : ℤ) ≤ (if u = 0 then 1 else 0) ∧ (if u = 0 then 1 else 0) < (80 : ℤ)
    split_ifs <;> decide
  · show (0 : ℤ) ≤ (if u = 0 then 24 else 0) ∧ (if u = 0 then 24 else 0) < (25 : ℤ)
    split_ifs <;> decide

/-- When Alt and F1 come before the page is moved. -/
def sampleFront : Output × OutputNotes :=
  let p := nextNoted 0 (chr '\n') (nextNoted 0 (chr '\n') (⟨sampleColumn, .start⟩, ⟨false, false⟩))
  (⟨(doHandleKeyboard sampleMachine sampleTicked (Frame.top 0) p.1.tty 59).2.2, p.1.pc⟩, p.2)

/-- When the page is moved, and the video memory is to be. -/
def sampleToMove : Output × OutputNotes :=
  (⟨{ sampleFront.1.tty with
      scr := (removeCursor sampleFront.1.tty.scr).moved 0 3840 }, .moveVideo 1⟩, ⟨false, false⟩)

/-- When `put_backspace` is done. -/
def sampleErased : Output × OutputNotes :=
  (nextNoted 0 (chr '\n'))^[7] sampleToMove

/-- When Alt and F2 have come. -/
def sampleBack : Output × OutputNotes :=
  (⟨(doHandleKeyboard sampleMachine { sampleTicked with currentActiveTerminal := 0 }
      (Frame.top 0) sampleErased.1.tty 60).2.2, sampleErased.1.pc⟩, sampleErased.2)

/-- When the character has been put. -/
def sampleScrolled : Output × OutputNotes := (nextNoted 0 (chr '\n'))^[3] sampleBack

theorem sampleFront_reach :
    (notedOutput sampleMachine 0 (chr '\n')).Reach (SwitchSafe 0) sampleFront := by
  have h0 : (notedOutput sampleMachine 0 (chr '\n')).Reach (SwitchSafe 0)
      (⟨sampleColumn, .start⟩, ⟨false, false⟩) := .init ⟨sampleColumn_init (chr '\n'), rfl⟩
  have h1 := reach_next h0 (switchSafe_of_pc nofun nofun)
  have h2 := reach_next h1 (switchSafe_of_pc nofun nofun)
  exact .step h2 trivial (a := .altFn sampleTicked (Frame.top 0) 59)
    ⟨⟨by decide, by decide, rfl⟩, rfl⟩

theorem sampleToMove_reach :
    (notedOutput sampleMachine 0 (chr '\n')).Reach (SwitchSafe 0) sampleToMove := by
  have hpage := reach_next sampleFront_reach (switchSafe_of_pc nofun nofun)
  have hnext : nextNoted 0 (chr '\n') sampleFront
      = (⟨{ sampleFront.1.tty with
          scr := (removeCursor sampleFront.1.tty.scr).moved 0 0 }, .movePage 1 0⟩,
        ⟨false, false⟩) := by
    rw [Screen.moved_zero]
    rfl
  rw [hnext] at hpage
  exact reach_movePage (Nat.zero_add 3840) hpage

/-- The video memory is moved and a cell blanked while terminal 0 is the active one. -/
theorem sampleErased_reach :
    (notedOutput sampleMachine 0 (chr '\n')).Reach (SwitchSafe 0) sampleErased := by
  have h1 := reach_next sampleToMove_reach ⟨fun _ _ _ => rfl, nofun⟩
  have h2 := reach_next h1 (switchSafe_of_pc nofun nofun)
  have h3 := reach_next h2 (switchSafe_of_pc nofun nofun)
  have h4 := reach_next h3 (switchSafe_of_pc nofun nofun)
  have h5 := reach_next h4 ⟨nofun, fun _ _ => ⟨by decide, rfl⟩⟩
  have h6 := reach_next h5 (switchSafe_of_pc nofun nofun)
  exact reach_next h6 (switchSafe_of_pc nofun nofun)

theorem sampleScrolled_reach :
    (notedOutput sampleMachine 0 (chr '\n')).Reach (SwitchSafe 0) sampleScrolled := by
  have h0 : (notedOutput sampleMachine 0 (chr '\n')).Reach (SwitchSafe 0) sampleBack :=
    .step sampleErased_reach trivial
      (a := .altFn { sampleTicked with currentActiveTerminal := 0 } (Frame.top 0) 60)
      ⟨⟨by decide, by decide, rfl⟩, rfl⟩
  have h1 := reach_next h0 (switchSafe_of_pc nofun nofun)
  have h2 := reach_next h1 (switchSafe_of_pc nofun nofun)
  exact reach_next h2 (switchSafe_of_pc nofun nofun)

/-- With a switch to terminal 0 before the rows are moved and one back after the blank, the screen
is the page of terminal 1. -/
theorem outputKept_of_safe_sample : sampleScrolled.1.tty.active = 1 ∧
    SameChars sampleScrolled.1.tty.scr.mem 1 := by
  have hactive : sampleScrolled.1.tty.active = 1 := by decide +kernel
  refine ⟨hactive, ?_⟩
  rw [← hactive]
  exact outputKept_of_safe sampleMachine 0 (chr '\n') sampleScrolled_reach rfl

end HieUnix
