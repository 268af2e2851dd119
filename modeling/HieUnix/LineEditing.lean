import Mathlib.Data.List.GetD
import HieUnix.Keyboard
import HieUnix.Ownership
import HieUnix.TerminalRead

/-!
# Line editing

What a user types on a terminal that stays active, and what the next read there gets. `Editor` is
the purpose of the keyboard code: a line of at most 128 characters and the modifier flags, and
what each scan code does to them. `Represents` connects it to the line buffer, whose bytes from the
position on are zero, and `Represents.step` is the simulation. The reader stops at the first zero
byte, so that it gets the line and a newline (`line_delivered`).
-/

namespace HieUnix

open Function

/-! ## The editor -/

/-- A line that is being typed, and the modifiers. -/
structure Editor where
  mods : Modifiers
  line : List Byte
deriving DecidableEq, Repr

/-- What a key with the character `key` does to a line. -/
def editLine (ctrlFlag : Bool) (key : Byte) (line : List Byte) : List Byte :=
  if key = 0x08 then line.dropLast
  else if (key = chr 'l' ∨ key = chr 'L') ∧ ctrlFlag = true then []
  else if key ≠ 0 ∧ line.length < maxBufferSize then line ++ [key]
  else line

/-- What a scan code does: a modifier changes a flag, every other key edits the line. -/
def Editor.key (e : Editor) (c : Byte) : Editor :=
  if isBreak c then { e with mods := breakKey e.mods c }
  else
    { mods := makeKey e.mods c
      line := editLine (makeKey e.mods c).ctrlFlag (getKey e.mods c) e.line }

/-- What an event does: only key presses matter. -/
def Editor.event (e : Editor) : TtyOp → Editor
  | .key _ _ c => e.key c
  | _ => e

theorem Editor.key_of_make (e : Editor) {c : Byte} (hmake : isBreak c = false) :
    e.key c
      = ⟨makeKey e.mods c, editLine (makeKey e.mods c).ctrlFlag (getKey e.mods c) e.line⟩ := by
  rw [Editor.key, hmake]
  rfl

/-- A key without a character changes no line. -/
theorem editLine_zero (ctrlFlag : Bool) (line : List Byte) : editLine ctrlFlag 0 line = line := by
  have hclear : ¬ (((0 : Byte) = chr 'l' ∨ (0 : Byte) = chr 'L') ∧ ctrlFlag = true) := by
    rintro ⟨h | h, -⟩ <;> exact absurd h (by decide)
  rw [editLine, if_neg (by decide), if_neg hclear, if_neg (fun h => h.1 rfl)]

/-! ## The line buffer -/

variable {con : Console} {t u : Term} {line : List Byte} {m : Machine} {tty tty' : Tty} {c : Byte}

/-- The line buffer of terminal `t` holds `line`, and zero bytes after it. -/
structure LineIs (con : Console) (t : Term) (line : List Byte) : Prop where
  pos : con.currBuffPos t = line.length
  length_le : line.length ≤ 128
  byte : ∀ i < 128, con.inputBuffer t i = line.getD i 0
  ne_zero : ∀ b ∈ line, b ≠ 0

/-- A line depends on the row of its terminal only. -/
theorem LineIs.congr {con' : Console} (h : LineIs con t line)
    (hpos : con'.currBuffPos t = con.currBuffPos t)
    (hrow : con'.inputBuffer t = con.inputBuffer t) : LineIs con' t line := by
  refine ⟨hpos.trans h.pos, h.length_le, ?_, h.ne_zero⟩
  intro i hi
  rw [hrow]
  exact h.byte i hi

/-- An empty line. -/
theorem lineIs_nil (hpos : con.currBuffPos t = 0) (hrow : ∀ i < 128, con.inputBuffer t i = 0) :
    LineIs con t [] := by
  refine ⟨hpos, Nat.zero_le _, ?_, fun b hb => absurd hb (List.not_mem_nil)⟩
  intro i hi
  rw [hrow i hi]
  rfl

theorem LineIs.clearInput (con : Console) (t : Term) :
    LineIs ((con.clearInput t).setPos t 0) t [] := by
  apply lineIs_nil
  · exact update_self t _ _
  · intro i _
    exact congrFun (update_self t (fun _ => 0) con.inputBuffer) i

theorem LineIs.append (h : LineIs con t line) {key : Byte} (hkey : key ≠ 0)
    (hlt : line.length < 128) :
    LineIs ((con.setInput t (con.currBuffPos t) key).setPos t (con.currBuffPos t + 1)) t
      (line ++ [key]) := by
  have hrow : ((con.setInput t (con.currBuffPos t) key).setPos t
      (con.currBuffPos t + 1)).inputBuffer t = update (con.inputBuffer t) line.length key := by
    rw [← h.pos]
    exact update_self t _ _
  constructor
  · rw [List.length_append, List.length_singleton, ← h.pos]
    exact update_self t _ _
  · rw [List.length_append, List.length_singleton]
    exact hlt
  · intro i hi
    rw [hrow]
    rcases Nat.lt_trichotomy i line.length with hl | hl | hl
    · rw [update_of_ne (by omega), h.byte i hi, List.getD_append _ _ _ _ hl]
    · rw [hl, update_self, List.getD_append_right _ _ _ _ (Nat.le_refl _), Nat.sub_self]
      rfl
    · rw [update_of_ne (by omega), h.byte i hi, List.getD_eq_default _ _ (Nat.le_of_lt hl),
        List.getD_eq_default]
      rw [List.length_append, List.length_singleton]
      exact hl
  · intro b hb
    rcases List.mem_append.mp hb with hb | hb
    · exact h.ne_zero b hb
    · rw [List.mem_singleton.mp hb]
      exact hkey

theorem LineIs.dropLast (h : LineIs con t line) :
    LineIs ((con.setInput t (con.currBuffPos t - 1) 0).setPos t (con.currBuffPos t - 1)) t
      line.dropLast := by
  have hlen := h.pos
  have hrow : ((con.setInput t (con.currBuffPos t - 1) 0).setPos t
      (con.currBuffPos t - 1)).inputBuffer t = update (con.inputBuffer t) (line.length - 1) 0 := by
    rw [← h.pos]
    exact update_self t _ _
  constructor
  · rw [List.length_dropLast, ← h.pos]
    exact update_self t _ _
  · rw [List.length_dropLast]
    exact Nat.le_trans (Nat.sub_le _ _) h.length_le
  · intro i hi
    rw [hrow]
    by_cases hl : i < line.length - 1
    · rw [update_of_ne (by omega), h.byte i hi, List.getD_eq_getElem _ _ (by omega),
        List.getD_eq_getElem _ _ (by rw [List.length_dropLast]; exact hl), List.getElem_dropLast]
    · rw [List.getD_eq_default line.dropLast _ (by rw [List.length_dropLast]; omega)]
      by_cases he : i = line.length - 1
      · rw [he, update_self]
      · rw [update_of_ne he, h.byte i hi, List.getD_eq_default _ _ (by omega)]
  · intro b hb
    exact h.ne_zero b (List.dropLast_subset _ hb)

/-! ## One key -/

/-- The make codes of the modifiers. -/
theorem fnKey_make (hfn : fnKey c = true) (hmake : isBreak c = false) :
    c ∈ [54, 58, 29, 42, 56] := by
  simp only [fnKey, Bool.or_eq_true, beq_iff_eq] at hfn
  rcases hfn with ((((((((h | h) | h) | h) | h) | h) | h) | h) | h) | h <;> subst h <;>
    first | decide | cases hmake

/-- The modifiers have no character. -/
theorem getKey_of_fnKey (mods : Modifiers) (hfn : fnKey c = true) (hmake : isBreak c = false) :
    getKey mods c = 0 := by
  have hmap : ∀ c ∈ [54, 58, 29, 42, 56], ∀ keys ∈
      [shiftClKeymap, shiftKeymap, capsLockKeymap, keymap], keys.getD (c : Byte).toNat 0 = 0 := by
    decide
  apply hmap c (fnKey_make hfn hmake)
  split_ifs <;> simp

/-- A backspace takes the last character back, if there is one. -/
theorem LineIs.backspaceKey (h : LineIs tty.con tty.active line) :
    LineIs (backspaceKey tty).con tty.active line.dropLast := by
  by_cases hpos : tty.con.currBuffPos tty.active = 0
  · rw [backspaceKey_of_eq_zero hpos]
    have hnil : line = [] := List.length_eq_zero_iff.mp (h.pos.symm.trans hpos)
    rw [hnil] at h ⊢
    refine h.congr ?_ ?_
    · show (tty.con.eraseInput tty.active).currBuffPos _ = _
      rw [eraseInput_currBuffPos]
    · show (tty.con.eraseInput tty.active).inputBuffer _ = _
      rw [Console.eraseInput, if_neg (not_not_intro hpos)]
      split_ifs with hzero
      · -- the store before the row is to the row of another terminal
        have hne : ∀ t : Term, t ≠ 0 → t ≠ t - 1 := by decide
        exact update_of_ne (hne _ hzero) _ _
      · rfl
  · rw [backspaceKey_of_ne_zero hpos]
    exact h.dropLast

/-- A key that is typed, other than the return key, edits the line. -/
theorem LineIs.typeKey (h : LineIs tty.con tty.active line) (hmake : isBreak c = false)
    {mods : Modifiers} (hline : isNewline (getKey mods c) = false) :
    LineIs (typeKey tty c (getKey mods c)).con tty.active
      (editLine tty.mods.ctrlFlag (getKey mods c) line) := by
  have henter : ¬ (getKey mods c = chr '\n' ∨ getKey mods c = chr '\r') := by
    simpa [isNewline] using hline
  have hpos := h.pos
  rw [HieUnix.typeKey, editLine, if_neg henter]
  split_ifs with hback hclear hchar hkey hroom hroom hroom
  · exact h.backspaceKey
  · exact .clearInput _ _
  · exact h.append hkey hroom.2
  · exact absurd ⟨hkey, by rw [← hpos]; exact hchar.2⟩ hroom
  · exact absurd hroom.1 hkey
  · exact h
  · -- there is room, and so it is a modifier
    have hfn : fnKey c = true := by
      by_contra hfn
      exact hchar ⟨hfn, by rw [hpos]; exact hroom.2⟩
    exact absurd (getKey_of_fnKey mods hfn hmake) hroom.1
  · exact h

/-! ## Events -/

/-- The terminals are in a state in which the user of terminal `t` has typed what the editor
holds. -/
structure Represents (tty : Tty) (t : Term) (e : Editor) : Prop where
  active : tty.active = t
  mods : tty.mods = e.mods
  line : LineIs tty.con t e.line
  mouse : ¬ tty.con.MousePending

/-- The events between two return keys on terminal `t`: no click, and no read there. -/
def Quiet (t : Term) (tty : Tty) : TtyOp → Prop
  | .key _ _ c => isEnter tty.mods c = false
  | .afterSwitch => True
  | .putc _ _ => True
  | .read u _ _ _ => u ≠ t
  | .click _ => False

/-- Quiet events while terminal `t` stays active. -/
def quietLTS (m : Machine) (t : Term) : LTS Tty TtyOp where
  init tty := tty.active = t
  step tty op tty' := (ttyLTS m).step tty op tty' ∧ Quiet t tty op ∧ tty'.active = t

/-- What a quiet event leaves as it is: what the next read on `t` finds. -/
structure KeepsPending (con con' : Console) (t : Term) : Prop where
  enterFlag : con'.enterFlag t = con.enterFlag t
  enterBuffer : con'.enterBuffer = con.enterBuffer

theorem Console.SamePending.keeps {con con' : Console} (h : con'.SamePending con) (t : Term) :
    KeepsPending con con' t := ⟨congrFun h.enterFlag t, h.enterBuffer⟩

theorem mousePending_congr {con con' : Console} (h : con'.mouseCommand = con.mouseCommand) :
    con'.MousePending ↔ con.MousePending := by
  rw [mousePending_iff, mousePending_iff, h]

variable {e : Editor}

theorem changeScreen_line (k : Kernel) (tty : Tty) (newTermNum : Term) :
    (changeScreen k tty newTermNum).con.currBuffPos = tty.con.currBuffPos ∧
      (changeScreen k tty newTermNum).con.inputBuffer = tty.con.inputBuffer ∧
      (changeScreen k tty newTermNum).mods = tty.mods := by
  unfold changeScreen; split_ifs <;> exact ⟨rfl, rfl, rfl⟩

theorem typeKey_mods (tty : Tty) (c key : Byte) : (typeKey tty c key).mods = tty.mods := by
  rcases typeKey_cases tty c key with h | ⟨-, h⟩ | ⟨-, h⟩ | h | ⟨-, -, -, h⟩
  · rw [h]
  · rw [h]
    by_cases hpos : tty.con.currBuffPos tty.active = 0
    · rw [backspaceKey_of_eq_zero hpos]
    · rw [backspaceKey_of_ne_zero hpos]
  · rw [h]
    rfl
  · rw [h]
    rfl
  · rw [h]
    rfl

/-- A key other than the return key does what the editor does. -/
theorem Represents.key (h : Represents tty t e) (m : Machine) (k : Kernel) (fr : Frame)
    (hquiet : isEnter tty.mods c = false)
    (hactive : (doHandleKeyboard m k fr tty c).2.2.active = t) :
    Represents (doHandleKeyboard m k fr tty c).2.2 t (e.key c) := by
  have hsame := doHandleKeyboard_samePending m k fr hquiet
  have hmouse : ¬ (doHandleKeyboard m k fr tty c).2.2.con.MousePending :=
    (mousePending_congr hsame.mouseCommand).not.mpr h.mouse
  have hline : LineIs tty.con tty.active e.line := h.active.symm ▸ h.line
  rcases doHandleKeyboard_cases m k fr tty c with ⟨hbreak, heq⟩ | ⟨hmake, -, heq⟩ |
    ⟨hmake, newNum, hsome, heq⟩
  · have hkey : e.key c = { e with mods := breakKey e.mods c } := if_pos hbreak
    refine ⟨hactive, ?_, ?_, hmouse⟩
    · rw [heq, hkey, ← h.mods]
      rfl
    · rw [heq, hkey]
      exact h.line
  · refine ⟨hactive, ?_, ?_, hmouse⟩
    · rw [heq, e.key_of_make hmake, ← h.mods]
      exact typeKey_mods (madeKey tty c) c _
    · have hnew := isNewline_of_isEnter_eq_false hquiet hmake
      have hmade : LineIs (madeKey tty c).con (madeKey tty c).active e.line := hline
      have hedit := hmade.typeKey hmake hnew
      rw [heq, e.key_of_make hmake, ← h.mods, ← h.active]
      exact hedit
  · -- a switch to the terminal itself, or one that is refused
    rw [switchKey] at hsome
    split_ifs at hsome
    obtain ⟨hpos, hrow, hmods⟩ := changeScreen_line k (acknowledge (madeKey tty c) kbIrqLine) newNum
    have hmods' : (doHandleKeyboard m k fr tty c).2.2.mods = makeKey tty.mods c := by
      rcases heq with heq | heq <;>
        · rw [heq]
          exact hmods
    have hline' : LineIs (doHandleKeyboard m k fr tty c).2.2.con t e.line := by
      rcases heq with heq | heq <;>
        · rw [heq]
          exact h.line.congr (congrFun hpos t) (congrFun hrow t)
    rw [e.key_of_make hmake, getKey_of_fnTerminal hsome, editLine_zero, ← h.mods]
    exact ⟨hactive, hmods', hline', hmouse⟩

/-- **A quiet event does what the editor does**, and leaves what is pending on `t` alone. -/
theorem Represents.step {op : TtyOp} (h : Represents tty t e)
    (hstep : (quietLTS m t).step tty op tty') :
    Represents tty' t (e.event op) ∧ KeepsPending tty.con tty'.con t := by
  obtain ⟨⟨henabled, hrun⟩, hquiet, hactive⟩ := hstep
  cases op with
  | key k fr c =>
    rw [hrun] at hactive ⊢
    exact ⟨h.key m k fr hquiet hactive,
      (doHandleKeyboard_samePending m k fr hquiet).keeps t⟩
  | afterSwitch =>
    rw [hrun]
    exact ⟨⟨h.active, h.mods, h.line, h.mouse⟩, rfl, rfl⟩
  | putc u c =>
    rw [hrun]
    exact ⟨⟨h.active, h.mods, h.line, h.mouse⟩, rfl, rfl⟩
  | read u mem buf nbytes =>
    -- a read of another terminal clears the flag of that one only
    have hne : t ≠ u := fun heq => hquiet heq.symm
    have hcon : tty'.con = if buf = 0 then tty.con
        else { tty.con with enterFlag := update tty.con.enterFlag u 0 } := by
      rw [hrun]
      exact terminalRead_con h.mouse u mem buf nbytes
    have hmods : tty'.mods = tty.mods := by rw [hrun]; rfl
    have hcommand : tty'.con.mouseCommand = tty.con.mouseCommand := by
      rw [hcon]
      split_ifs <;> rfl
    have hmouse : ¬ tty'.con.MousePending := (mousePending_congr hcommand).not.mpr h.mouse
    refine ⟨⟨hactive, hmods.trans h.mods, ?_, hmouse⟩, ?_, ?_⟩
    · rw [hcon]
      split_ifs
      · exact h.line
      · exact h.line.congr rfl rfl
    · rw [hcon]
      split_ifs
      · rfl
      · exact update_of_ne hne _ _
    · rw [hcon]
      split_ifs <;> rfl
  | click newPos => exact absurd hquiet id

/-- A run of quiet events does what the editor does. -/
theorem Represents.run {ops : List TtyOp} (h : Represents tty t e)
    (hrun : (quietLTS m t).Run tty ops tty') :
    Represents tty' t (ops.foldl Editor.event e) ∧ KeepsPending tty.con tty'.con t := by
  induction hrun generalizing e with
  | nil tty => exact ⟨h, rfl, rfl⟩
  | cons hstep _ ih =>
    obtain ⟨hnext, hkeeps⟩ := h.step hstep
    obtain ⟨hlast, hkeeps'⟩ := ih hnext
    refine ⟨hlast, hkeeps'.enterFlag.trans hkeeps.enterFlag, ?_⟩
    exact hkeeps'.enterBuffer.trans hkeeps.enterBuffer

/-! ## The return key and the next read -/

/-- The return key empties the line buffer and leaves the line in `enter_buffer`. -/
theorem Represents.enter (h : Represents tty t e) (m : Machine) (k : Kernel) (fr : Frame)
    (henter : isEnter tty.mods c = true) :
    let tty' := (doHandleKeyboard m k fr tty c).2.2
    Represents tty' t ⟨makeKey e.mods c, []⟩ ∧ tty'.con.enterFlag t = 1 ∧
      tty'.con.enterBuffer = tty.con.inputBuffer t := by
  intro tty'
  have heq : tty' = acknowledge (enterKey (madeKey tty c) (getKey tty.mods c)) kbIrqLine :=
    doHandleKeyboard_enter m k fr henter
  have hactive : tty.con.currentActiveTerminal = t := h.active
  have hcommand : tty'.con.mouseCommand = tty.con.mouseCommand := by
    rw [heq]
    rfl
  refine ⟨⟨?_, ?_, ?_, (mousePending_congr hcommand).not.mpr h.mouse⟩, ?_, ?_⟩
  · rw [heq]
    exact h.active
  · rw [heq, ← h.mods]
    rfl
  · rw [heq, ← h.active]
    exact .clearInput _ _
  · rw [heq, ← h.active]
    exact update_self _ _ _
  · rw [heq, ← h.active]
    rfl

/-- A read that may take more bytes than the line has gets the line and a newline. -/
theorem terminalRead_line {con : Console} (hlen : line.length ≤ 128)
    (hbyte : ∀ i < 128, con.enterBuffer i = line.getD i 0) (hnz : ∀ b ∈ line, b ≠ 0)
    (hmouse : ¬ con.MousePending) {buf nbytes : Word} (hbuf : buf ≠ 0)
    (hn : line.length < nbytes.toNat) (t : Term) (mem : Memory) :
    let r := terminalRead con t mem buf nbytes
    r.1 = BitVec.ofNat 32 (line.length + 1) ∧
      r.2.2.bytes buf (line.length + 1) = line ++ [chr '\n'] ∧
      ∀ a, ¬ InSpan a buf (line.length + 1) → r.2.2 a = mem a := by
  intro r
  have hcount : line.length ≤ readCount nbytes ∧ readCount nbytes ≤ 128 ∧
      (readCount nbytes = 128 ∨ line.length < readCount nbytes) := by
    rw [readCount]
    split_ifs with h
    · exact ⟨hlen, Nat.le_refl _, .inl rfl⟩
    · have hle : nbytes.toNat ≤ 128 := Nat.le_of_not_lt h
      omega
  -- the line ends before the count, at its first zero byte
  have hall : lineLength con nbytes = line.length := by
    apply strlenLoop_eq (Nat.zero_le _) (by omega)
    · intro j _ hj
      rw [hbyte j (by omega), List.getD_eq_getElem _ _ hj]
      exact hnz _ (List.getElem_mem hj)
    · intro hlt
      rw [hbyte _ (by omega)]
      exact List.getD_eq_default _ _ (Nat.le_refl _)
  obtain ⟨mem', hread, hbytes, hout⟩ := terminalRead_of_line hbuf hmouse t mem nbytes
  have hline : (List.range line.length).map con.enterBuffer = line := by
    apply List.ext_getElem
    · simp
    · intro i h1 h2
      rw [List.getElem_map, List.getElem_range, hbyte i (by omega), List.getD_eq_getElem _ _ h2]
  rw [hall] at hread hbytes hout
  rw [hline] at hbytes
  have hr : r = (BitVec.ofNat 32 (line.length + 1),
      { con with enterFlag := update con.enterFlag t 0 }, mem') := hread
  rw [hr]
  exact ⟨rfl, hbytes, hout⟩

/-- **Line editing, end to end.** On a terminal that stays active, from an empty line on, with no
click pending and no read there: after the return key the line buffer is empty, and the next read
with room for it gets what the editor has made of the key presses, and a newline. -/
theorem line_delivered {ops : List TtyOp} {tty₁ : Tty} (hactive : tty.active = t)
    (hmouse : ¬ tty.con.MousePending) (hpos : tty.con.currBuffPos t = 0)
    (hrow : ∀ i < 128, tty.con.inputBuffer t i = 0) (hrun : (quietLTS m t).Run tty ops tty₁)
    (k : Kernel) (fr : Frame) (henter : isEnter tty₁.mods c = true) :
    let line := (ops.foldl Editor.event ⟨tty.mods, []⟩).line
    let tty₂ := (doHandleKeyboard m k fr tty₁ c).2.2
    (tty₂.con.currBuffPos t = 0 ∧ ∀ i < 128, tty₂.con.inputBuffer t i = 0) ∧
      ∀ ops' tty₃, (quietLTS m t).Run tty₂ ops' tty₃ →
        ∀ mem buf nbytes, buf ≠ 0 → line.length < nbytes.toNat →
          (TtyOp.read t mem buf nbytes).Enabled tty₃ ∧
          let r := terminalRead tty₃.con t mem buf nbytes
          r.1 = BitVec.ofNat 32 (line.length + 1) ∧
            r.2.2.bytes buf (line.length + 1) = line ++ [chr '\n'] ∧
            ∀ a, ¬ InSpan a buf (line.length + 1) → r.2.2 a = mem a := by
  intro line tty₂
  have hstart : Represents tty t ⟨tty.mods, []⟩ := ⟨hactive, rfl, lineIs_nil hpos hrow, hmouse⟩
  have htyped := (hstart.run hrun).1
  obtain ⟨hempty, hflag, hbuffer⟩ := htyped.enter m k fr henter
  refine ⟨⟨hempty.line.pos, hempty.line.byte⟩, ?_⟩
  intro ops' tty₃ hrun' mem buf nbytes hbuf hn
  obtain ⟨hwaiting, hkeeps⟩ := hempty.run hrun'
  have hflag₃ : tty₃.con.enterFlag t = 1 := hkeeps.enterFlag.trans hflag
  have henabled : (TtyOp.read t mem buf nbytes).Enabled tty₃ := by
    right
    rw [hflag₃]
    decide
  have hbyte : ∀ i < 128, tty₃.con.enterBuffer i = line.getD i 0 := by
    intro i hi
    rw [hkeeps.enterBuffer, hbuffer]
    exact htyped.line.byte i hi
  exact ⟨henabled, terminalRead_line htyped.line.length_le hbyte htyped.line.ne_zero
    hwaiting.mouse hbuf hn t mem⟩

/-- The process tables when every terminal has a shell and terminal `t` is active. -/
def sampleTables (t : Term) : Kernel :=
  { sampleBoot with termCurrPcb := fun _ => some 0, currentActiveTerminal := t }

/-- A key press while only the first shell runs. -/
def samplePress (c : Byte) : TtyOp := .key sampleBoot (Frame.top 0) c

/-- The terminals when the key A has been pressed at boot. -/
def sampleTyped : Tty := (samplePress 30).run sampleMachine (bootTty (fun _ => 0) [])

theorem sampleTyped_run :
    (quietLTS sampleMachine 0).Run (bootTty (fun _ => 0) []) [samplePress 30] sampleTyped :=
  .cons ⟨⟨rfl, rfl⟩, rfl, rfl⟩ (.nil _)

theorem line_delivered_sample :
    (terminalRead (doHandleKeyboard sampleMachine sampleBoot (Frame.top 0) sampleTyped 28).2.2.con
      0 (fun _ => 0) 0x8048000 128).1 = 2 := by
  have hmouse : ¬ (bootTty (fun _ => 0) []).con.MousePending := by decide
  have henter : isEnter sampleTyped.mods 28 = true := by decide
  have h := line_delivered rfl hmouse rfl (fun _ _ => rfl) sampleTyped_run sampleBoot (Frame.top 0)
    henter
  exact (h.2 [] _ (.nil _) (fun _ => 0) 0x8048000 128 (by decide) (by decide)).2.1

end HieUnix
