import HieUnix.Mouse

/-!
# The mouse in bytes (`mouse.c`)

The driver keeps the coordinates of the pointer in variables of type `char`, adds a quarter of the
byte of the packet to them, and clamps the sum afterwards. Here it is with these bytes and with a
record of the sums and of the cells of the screen it looks at; `doHandleMouse_chars` says that it
computes what the driver over integers does. The sums fit a `char`, the coordinates stay on the
screen, and so do the cells (`mouse_onScreen`).

The first byte after `mouse_init` is dropped and every three bytes after it are a packet. The button
is read as the remainder of a signed byte, so that it is missed when the sign bit is set
(`packetsRight_iff`).
-/

namespace HieUnix

open Function

/-! ## The driver -/

/-- A value stored into a `char`. -/
def toChar (v : ℤ) : Byte := BitVec.ofInt 8 v

/-- The globals of `mouse.c`. -/
structure CharMouse where
  mouseCycle : Word
  mouseByte : Fin 3 → Byte
  button : Fin 2 → Word
  mouseX : Fin 2 → Byte
  mouseY : Fin 2 → Byte
  selected : Fin 2 → Word

/-- What a call has computed and looked at: the values assigned to `mouse_x[1]` and `mouse_y[1]`
before they are stored, the cells of the screen, and the mouse at each call of `update_cursor`. -/
structure MouseTrace where
  sums : List ℤ
  cells : List Word
  calls : List CharMouse

/-- Nothing. -/
def MouseTrace.nil : MouseTrace := ⟨[], [], []⟩

/-- A coordinate moved back onto the screen of size `n`. -/
def clampChar (n : ℤ) (v : Byte) : Byte :=
  let v := if n ≤ v.toInt then toChar (n - 1) else v
  if v.toInt < 0 then 0 else v

/-- The cells of the loop of `select`. -/
def selectLoopCells : ℕ → Word → List Word
  | 0, _ => []
  | n + 1, i => i :: selectLoopCells n (i + 1)

/-- The cells that `select` passes to `update_attribute`. -/
def selectCells (pos1 pos2 : Word) : List Word :=
  if pos1 < pos2 then selectLoopCells (pos2.toNat + 1 - pos1.toNat) pos1
  else selectLoopCells (pos1.toNat + 1 - pos2.toNat) pos2

/-- The cells that `run_prog` reads. -/
def runProgCells (newPos : Word) : List Word :=
  (List.range fnameSize).map fun i =>
    newPos - newPos % BitVec.ofNat 32 numCols + BitVec.ofNat 32 i

namespace CharMouse

/-- `old_pos` and `new_pos`. -/
def cell (ms : CharMouse) (i : Fin 2) : Word :=
  BitVec.ofInt 32 ((ms.mouseY i).toInt * numCols + (ms.mouseX i).toInt)

/-- The sum for `mouse_x[1]`. -/
def sumX (ms : CharMouse) : ℤ := (ms.mouseX 0).toInt + (ms.mouseByte 1).toInt.tdiv 4

/-- The sum for `mouse_y[1]`. -/
def sumY (ms : CharMouse) : ℤ := (ms.mouseY 0).toInt - (ms.mouseByte 2).toInt.tdiv 4

/-- The start of `update_cursor`. -/
def movePointer (ms : CharMouse) : CharMouse :=
  { ms with
    mouseX := update ms.mouseX 1 (clampChar numCols (toChar ms.sumX))
    mouseY := update ms.mouseY 1 (clampChar numRows (toChar ms.sumY)) }

/-- The branches of `update_cursor`. -/
def drawPointer (ms : CharMouse) : CharMouse × List Word :=
  if ms.button 1 ≠ 0 then
    if ms.button 0 = 0 then
      ({ ms with selected := update ms.selected 0 (ms.cell 1) },
        selectCells (ms.selected 0) (ms.selected 1))
    else (ms, selectCells (ms.cell 0) (ms.cell 1) ++ selectCells (ms.selected 0) (ms.cell 1))
  else if ms.button 0 = 0 then (ms, [ms.cell 0, ms.cell 1])
  else
    let ms := { ms with selected := update ms.selected 1 (ms.cell 1) }
    if ms.selected 0 = ms.selected 1 then (ms, runProgCells (ms.cell 1)) else (ms, [])

/-- The end of `update_cursor`. -/
def keepPointer (ms : CharMouse) : CharMouse :=
  { ms with
    mouseX := update ms.mouseX 0 (ms.mouseX 1)
    mouseY := update ms.mouseY 0 (ms.mouseY 1) }

/-- `update_cursor`. -/
def updateCursor (ms : CharMouse) : CharMouse × MouseTrace :=
  let (drawn, cells) := ms.movePointer.drawPointer
  (drawn.keepPointer, ⟨[ms.sumX, ms.sumY], cells, [ms]⟩)

/-- `do_handle_mouse` up to the end of the interrupt, with the byte at the data port. -/
def packet (ms : CharMouse) (data : Byte) : CharMouse × MouseTrace :=
  if ms.mouseCycle = 0 then ({ ms with mouseCycle := 3 }, .nil)
  else if ms.mouseCycle % 3 = 0 then
    ({ ms with
      button := update (update ms.button 0 (pressed (ms.mouseByte 0))) 1 (pressed data)
      mouseByte := update ms.mouseByte 0 data
      mouseCycle := ms.mouseCycle + 1 }, .nil)
  else if ms.mouseCycle % 3 = 1 then
    ({ ms with
      mouseByte := update ms.mouseByte 1 data
      mouseCycle := ms.mouseCycle + 1 }, .nil)
  else
    updateCursor { ms with
      mouseByte := update ms.mouseByte 2 data
      mouseCycle := ms.mouseCycle + 1 }

/-- `do_handle_mouse`. -/
def doHandleMouse (ms : CharMouse) (data : Byte) : CharMouse × MouseTrace :=
  let (ms, trace) := ms.packet data
  ({ ms with mouseCycle := ms.mouseCycle % 3 + 3 }, trace)

end CharMouse

/-! ## It is the driver over integers -/

/-- The globals with the coordinates as bytes. -/
def Mouse.chars (ms : Mouse) : CharMouse where
  mouseCycle := ms.mouseCycle
  mouseByte := ms.mouseByte
  button := ms.button
  mouseX i := toChar (ms.mouseX i)
  mouseY i := toChar (ms.mouseY i)
  selected := ms.selected

theorem toInt_toChar {v : ℤ} (h : -128 ≤ v ∧ v < 128) : (toChar v).toInt = v := by
  rw [toChar, BitVec.toInt_ofInt, Int.bmod_def]
  split_ifs <;> omega

theorem clampChar_toChar {n v : ℤ} (hn : 0 < n ∧ n ≤ 128) (hv : -128 ≤ v ∧ v < 128) :
    clampChar n (toChar v) = toChar (clampTo n v) := by
  have hpred : (toChar (n - 1)).toInt = n - 1 := toInt_toChar (by omega)
  have hval := toInt_toChar hv
  rw [clampChar, clampTo, hval]
  by_cases hle : n ≤ v
  · rw [if_pos hle, if_pos hle, hpred, if_neg (by omega), if_neg (by omega)]
  · rw [if_neg hle, if_neg hle, hval]
    split_ifs <;> rfl

/-- A coordinate that has been clamped is on the screen, whatever byte it was. -/
theorem clampChar_mem {n : ℤ} (hn : 0 < n ∧ n ≤ 128) (v : Byte) :
    0 ≤ (clampChar n v).toInt ∧ (clampChar n v).toInt < n := by
  have hpred : (toChar (n - 1)).toInt = n - 1 := toInt_toChar (by omega)
  have hzero : (0 : Byte).toInt = 0 := rfl
  rw [clampChar]
  by_cases hle : n ≤ v.toInt
  · rw [if_pos hle, hpred, if_neg (by omega), hpred]
    omega
  · rw [if_neg hle]
    split_ifs with hneg
    · rw [hzero]
      omega
    · omega

variable {ms : Mouse} {tty : Tty} {data : Byte}

theorem Mouse.chars_mouseX (ms : Mouse) (i : Fin 2) : (ms.chars.mouseX i).toInt = ms.mouseX i := by
  have h : 0 ≤ ms.mouseX i ∧ ms.mouseX i < 80 := ms.mouseX_mem i
  exact toInt_toChar (by omega)

theorem Mouse.chars_mouseY (ms : Mouse) (i : Fin 2) : (ms.chars.mouseY i).toInt = ms.mouseY i := by
  have h : 0 ≤ ms.mouseY i ∧ ms.mouseY i < 25 := ms.mouseY_mem i
  exact toInt_toChar (by omega)

theorem Mouse.chars_cell (ms : Mouse) (i : Fin 2) : ms.chars.cell i = ms.cell i := by
  rw [CharMouse.cell, Mouse.chars_mouseX, Mouse.chars_mouseY]
  rfl

/-- A quarter of a signed byte. -/
theorem tdiv_four : ∀ b : Byte, -32 ≤ b.toInt.tdiv 4 ∧ b.toInt.tdiv 4 ≤ 31 := by decide

theorem Mouse.movePointer_chars (ms : Mouse) : ms.movePointer.chars = ms.chars.movePointer := by
  have hx : 0 ≤ ms.mouseX 0 ∧ ms.mouseX 0 < 80 := ms.mouseX_mem 0
  have hy : 0 ≤ ms.mouseY 0 ∧ ms.mouseY 0 < 25 := ms.mouseY_mem 0
  have hdx := tdiv_four (ms.mouseByte 1)
  have hdy := tdiv_four (ms.mouseByte 2)
  have hsumX : ms.chars.sumX = ms.mouseX 0 + (ms.mouseByte 1).toInt.tdiv 4 := by
    rw [CharMouse.sumX, Mouse.chars_mouseX]
    rfl
  have hsumY : ms.chars.sumY = ms.mouseY 0 - (ms.mouseByte 2).toInt.tdiv 4 := by
    rw [CharMouse.sumY, Mouse.chars_mouseY]
    rfl
  rw [CharMouse.movePointer, hsumX, hsumY, clampChar_toChar (by decide) (by omega),
    clampChar_toChar (by decide) (by omega)]
  rw [Mouse.movePointer, Mouse.chars]
  congr 1
  · funext i
    exact apply_update (fun _ => toChar) ms.mouseX 1 _ i
  · funext i
    exact apply_update (fun _ => toChar) ms.mouseY 1 _ i

theorem Mouse.keepPointer_chars (ms : Mouse) : ms.keepPointer.chars = ms.chars.keepPointer := by
  rw [Mouse.keepPointer, Mouse.chars, CharMouse.keepPointer]
  congr 1
  · funext i
    exact apply_update (fun _ => toChar) ms.mouseX 0 _ i
  · funext i
    exact apply_update (fun _ => toChar) ms.mouseY 0 _ i

theorem select_mouse {pos1 pos2 : Word} (h1 : pos1.toNat < numRows * numCols)
    (h2 : pos2.toNat < numRows * numCols) (white : Word) (s : Screen) :
    (select s pos1 pos2 white).mouse = s.mouse := (sameText_select h1 h2 white s).mouse

theorem drawPointer_chars (tty : Tty) :
    (drawPointer tty).scr.mouse.chars = tty.scr.mouse.chars.drawPointer.1 := by
  have hcell := tty.scr.mouse.cell_lt
  have hselected := tty.scr.mouse.selected_lt
  have hbutton : tty.scr.mouse.chars.button = tty.scr.mouse.button := rfl
  rw [drawPointer, CharMouse.drawPointer, hbutton]
  dsimp only
  split_ifs
  · rw [Mouse.chars_cell]
    rfl
  · show (select (select tty.scr _ _ 0) _ _ 1).mouse.chars = tty.scr.mouse.chars
    rw [select_mouse (hselected 0) (hcell 1), select_mouse (hcell 0) (hcell 1)]
  · show (updateAttribute (updateAttribute tty.scr _ 2) _ 2).mouse.chars = tty.scr.mouse.chars
    rw [updateAttribute_mouse, updateAttribute_mouse]
  · rw [Mouse.chars_cell, endSelection]
    split_ifs <;> rfl
  · rw [Mouse.chars_cell, endSelection]
    split_ifs <;> rfl

theorem updateCursor_chars (tty : Tty) :
    (updateCursor tty).scr.mouse.chars = tty.scr.mouse.chars.updateCursor.1 := by
  show (drawPointer (tty.setMouse tty.scr.mouse.movePointer)).scr.mouse.keepPointer.chars = _
  rw [Mouse.keepPointer_chars, drawPointer_chars]
  show (tty.scr.mouse.movePointer.chars.drawPointer.1).keepPointer = _
  rw [Mouse.movePointer_chars]
  rfl

theorem mousePacket_chars (tty : Tty) (data : Byte) :
    (mousePacket tty data).scr.mouse.chars = (tty.scr.mouse.chars.packet data).1 := by
  have hcycle : tty.scr.mouse.chars.mouseCycle = tty.scr.mouse.mouseCycle := rfl
  rw [mousePacket, CharMouse.packet, hcycle]
  split_ifs
  · rfl
  · rfl
  · rfl
  · rw [updateCursor_chars]
    rfl

/-- **The driver over bytes computes what the one over integers does.** -/
theorem doHandleMouse_chars (tty : Tty) (data : Byte) :
    (doHandleMouse tty data).scr.mouse.chars = (tty.scr.mouse.chars.doHandleMouse data).1 := by
  have hcycle : (mousePacket tty data).scr.mouse.mouseCycle
      = (tty.scr.mouse.chars.packet data).1.mouseCycle := by
    rw [← mousePacket_chars]
    rfl
  show { (mousePacket tty data).scr.mouse.chars with
      mouseCycle := (mousePacket tty data).scr.mouse.mouseCycle % 3 + 3 }
    = { (tty.scr.mouse.chars.packet data).1 with
      mouseCycle := (tty.scr.mouse.chars.packet data).1.mouseCycle % 3 + 3 }
  rw [mousePacket_chars, hcycle]

/-! ## What is drawn -/

/-- Where the attribute of a cell is. -/
def attributeAddr (cell : Word) : ℤ := video + (cell <<< 1).toNat + 1

theorem updateAttribute_of_ne {s : Screen} {cell : Word} {b : ℤ} (h : b ≠ attributeAddr cell)
    (attrib : Word) : (updateAttribute s cell attrib).mem b = s.mem b := by
  obtain ⟨v, hstore⟩ := updateAttribute_eq_store s cell attrib
  rw [hstore]
  exact update_of_ne h _ _

theorem selectLoop_of_ne {white : Word} {n : ℕ} {i : Word} {s : Screen} {b : ℤ}
    (h : ∀ cell ∈ selectLoopCells n i, b ≠ attributeAddr cell) :
    (selectLoop white n i s).mem b = s.mem b := by
  induction n generalizing i s with
  | zero => rfl
  | succ n ih =>
    rw [selectLoopCells, List.forall_mem_cons] at h
    rw [selectLoop, ih h.2, updateAttribute_of_ne h.1]

theorem select_of_ne {pos1 pos2 white : Word} {s : Screen} {b : ℤ}
    (h : ∀ cell ∈ selectCells pos1 pos2, b ≠ attributeAddr cell) :
    (select s pos1 pos2 white).mem b = s.mem b := by
  rw [selectCells] at h
  rw [select]
  split_ifs at h ⊢
  · exact selectLoop_of_ne h
  · exact selectLoop_of_ne h

theorem drawPointer_of_ne {b : ℤ}
    (h : ∀ cell ∈ tty.scr.mouse.chars.drawPointer.2, b ≠ attributeAddr cell) :
    (drawPointer tty).scr.mem b = tty.scr.mem b := by
  have hbutton : tty.scr.mouse.chars.button = tty.scr.mouse.button := rfl
  have hselected : tty.scr.mouse.chars.selected = tty.scr.mouse.selected := rfl
  rw [CharMouse.drawPointer, hbutton, hselected, Mouse.chars_cell, Mouse.chars_cell] at h
  rw [drawPointer]
  by_cases h1 : tty.scr.mouse.button 1 ≠ 0
  · rw [if_pos h1] at h ⊢
    by_cases h0 : tty.scr.mouse.button 0 = 0
    · rw [if_pos h0] at h ⊢
      exact select_of_ne h
    · rw [if_neg h0, List.forall_mem_append] at h
      rw [if_neg h0]
      exact (select_of_ne h.2).trans (select_of_ne h.1)
  · rw [if_neg h1] at h ⊢
    by_cases h0 : tty.scr.mouse.button 0 = 0
    · rw [if_pos h0, List.forall_mem_cons, List.forall_mem_singleton] at h
      rw [if_pos h0]
      exact (updateAttribute_of_ne h.2 2).trans (updateAttribute_of_ne h.1 2)
    · rw [if_neg h0, endSelection]
      split_ifs <;> rfl

/-- **A byte of the mouse changes nothing but the attributes of the cells it looks at.** -/
theorem doHandleMouse_mem {b : ℤ}
    (h : ∀ cell ∈ (tty.scr.mouse.chars.doHandleMouse data).2.cells, b ≠ attributeAddr cell) :
    (doHandleMouse tty data).scr.mem b = tty.scr.mem b := by
  have hcycle : tty.scr.mouse.chars.mouseCycle = tty.scr.mouse.mouseCycle := rfl
  have h' : ∀ cell ∈ (tty.scr.mouse.chars.packet data).2.cells, b ≠ attributeAddr cell := h
  rw [CharMouse.packet, hcycle] at h'
  show (mousePacket tty data).scr.mem b = _
  rw [mousePacket]
  split_ifs at h' ⊢
  · rfl
  · rfl
  · rfl
  · apply drawPointer_of_ne
    intro cell hcell
    apply h' cell
    change cell ∈ (Mouse.movePointer _).chars.drawPointer.2 at hcell
    rw [Mouse.movePointer_chars] at hcell
    exact hcell

/-! ## The coordinates -/

/-- The pointer and the ends of the selection are on the screen. -/
structure OnScreen (ms : CharMouse) : Prop where
  x : ∀ i, 0 ≤ (ms.mouseX i).toInt ∧ (ms.mouseX i).toInt < 80
  y : ∀ i, 0 ≤ (ms.mouseY i).toInt ∧ (ms.mouseY i).toInt < 25
  selected : ∀ i, (ms.selected i).toNat < 2000

/-- The sums fit a `char`, and the cells are on the screen. -/
structure MouseTrace.Fits (trace : MouseTrace) : Prop where
  sums : ∀ v ∈ trace.sums, -128 ≤ v ∧ v < 128
  cells : ∀ cell ∈ trace.cells, cell.toNat < 2000

/-- A byte of the mouse, or one of the other places where the screen is looked at: the `select` of
`do_handle_keyboard`, and `remove_cursor` and `reset_cursor`. -/
inductive MouseOp
  | data (b : Byte)
  | selection
  | pointer

/-- The effect of an event. -/
def MouseOp.run (ms : CharMouse) : MouseOp → CharMouse × MouseTrace
  | .data b => ms.doHandleMouse b
  | .selection => (ms, { MouseTrace.nil with cells := selectCells (ms.selected 0) (ms.selected 1) })
  | .pointer => (ms, { MouseTrace.nil with cells := [ms.cell 1] })

/-- The runs of the mouse after `mouse_init`. -/
def mouseLTS : LTS CharMouse MouseOp where
  init ms := ms = mouseInit.chars
  step ms op ms' := ms' = (op.run ms).1

theorem mem_selectLoopCells {n : ℕ} {i cell : Word} (hi : i.toNat + n ≤ 2000)
    (h : cell ∈ selectLoopCells n i) : cell.toNat < 2000 := by
  induction n generalizing i with
  | zero => cases h
  | succ n ih =>
    rcases List.mem_cons.mp h with rfl | h
    · omega
    · have hnext : (i + 1).toNat = i.toNat + 1 := by bv_omega
      exact ih (by omega) h

theorem mem_selectCells {pos1 pos2 cell : Word} (h1 : pos1.toNat < 2000) (h2 : pos2.toNat < 2000)
    (h : cell ∈ selectCells pos1 pos2) : cell.toNat < 2000 := by
  rw [selectCells] at h
  split_ifs at h with hlt
  · have hlt' : pos1.toNat < pos2.toNat := hlt
    exact mem_selectLoopCells (by omega) h
  · have hle : pos2.toNat ≤ pos1.toNat := Nat.le_of_not_lt hlt
    exact mem_selectLoopCells (by omega) h

theorem row_le {n : ℕ} (h : n < 2000) : n - n % 80 ≤ 1920 := by omega

/-- A click reads the start of a row of the screen. -/
theorem mem_runProgCells {newPos cell : Word} (hpos : newPos.toNat < 2000)
    (h : cell ∈ runProgCells newPos) : cell.toNat < 2000 := by
  rw [runProgCells] at h
  obtain ⟨i, hi, rfl⟩ := List.mem_map.mp h
  have hi' : i < 32 := List.mem_range.mp hi
  have hmod : (newPos % BitVec.ofNat 32 numCols).toNat = newPos.toNat % 80 := BitVec.toNat_umod
  have hsub : (newPos - newPos % BitVec.ofNat 32 numCols).toNat
      = newPos.toNat - newPos.toNat % 80 := by
    rw [BitVec.toNat_sub_of_le, hmod]
    rw [BitVec.le_def, hmod]
    exact Nat.mod_le _ _
  have hrow := row_le hpos
  have hcol : (BitVec.ofNat 32 i).toNat = i := by
    rw [BitVec.toNat_ofNat]
    omega
  rw [BitVec.toNat_add_of_lt (by omega), hsub, hcol]
  omega

variable {cm : CharMouse}

theorem OnScreen.cell_lt (h : OnScreen cm) (i : Fin 2) : (cm.cell i).toNat < 2000 := by
  have hx := h.x i
  have hy := h.y i
  have hcell : ((cm.cell i).toNat : ℤ) = 80 * (cm.mouseY i).toInt + (cm.mouseX i).toInt :=
    toNat_position hx hy
  omega

theorem MouseTrace.fits_nil : MouseTrace.nil.Fits := ⟨nofun, nofun⟩

/-- A coordinate that is stored is on the screen when the byte is. -/
theorem update_toInt_mem {n : ℤ} {f : Fin 2 → Byte}
    (hf : ∀ i, 0 ≤ (f i).toInt ∧ (f i).toInt < n) (j : Fin 2) {v : Byte}
    (hv : 0 ≤ v.toInt ∧ v.toInt < n) (i : Fin 2) :
    0 ≤ (update f j v i).toInt ∧ (update f j v i).toInt < n := by
  rw [update_apply]
  split_ifs
  · exact hv
  · exact hf i

theorem OnScreen.movePointer (h : OnScreen cm) : OnScreen cm.movePointer := by
  refine ⟨?_, ?_, h.selected⟩
  · exact update_toInt_mem h.x 1 (clampChar_mem (by decide) _)
  · exact update_toInt_mem h.y 1 (clampChar_mem (by decide) _)

theorem OnScreen.keepPointer (h : OnScreen cm) : OnScreen cm.keepPointer := by
  refine ⟨?_, ?_, h.selected⟩
  · exact update_toInt_mem h.x 0 (h.x 1)
  · exact update_toInt_mem h.y 0 (h.y 1)

theorem OnScreen.setSelected (h : OnScreen cm) (j : Fin 2) :
    OnScreen { cm with selected := update cm.selected j (cm.cell 1) } := by
  refine ⟨h.x, h.y, ?_⟩
  intro i
  show (update cm.selected j (cm.cell 1) i).toNat < 2000
  rw [update_apply]
  split_ifs
  · exact h.cell_lt 1
  · exact h.selected i

theorem OnScreen.drawPointer (h : OnScreen cm) :
    OnScreen cm.drawPointer.1 ∧ ∀ cell ∈ cm.drawPointer.2, cell.toNat < 2000 := by
  have hcell := h.cell_lt
  rw [CharMouse.drawPointer]
  split_ifs
  · exact ⟨h.setSelected 0, fun cell => mem_selectCells (h.selected 0) (h.selected 1)⟩
  · refine ⟨h, fun cell hmem => ?_⟩
    rcases List.mem_append.mp hmem with hmem | hmem
    · exact mem_selectCells (hcell 0) (hcell 1) hmem
    · exact mem_selectCells (h.selected 0) (hcell 1) hmem
  · refine ⟨h, fun cell hmem => ?_⟩
    simp only [List.mem_cons, List.not_mem_nil, or_false] at hmem
    rcases hmem with rfl | rfl
    · exact hcell 0
    · exact hcell 1
  · dsimp only
    split_ifs
    · exact ⟨h.setSelected 1, fun cell => mem_runProgCells (hcell 1)⟩
    · exact ⟨h.setSelected 1, nofun⟩

theorem OnScreen.updateCursor (h : OnScreen cm) :
    OnScreen cm.updateCursor.1 ∧ cm.updateCursor.2.Fits := by
  obtain ⟨hdrawn, hcells⟩ := h.movePointer.drawPointer
  refine ⟨hdrawn.keepPointer, ?_, hcells⟩
  -- a quarter of a byte moves a coordinate by 32 at most
  have hx := h.x 0
  have hy := h.y 0
  have hdx := tdiv_four (cm.mouseByte 1)
  have hdy := tdiv_four (cm.mouseByte 2)
  intro v hv
  have hcases : v = cm.sumX ∨ v = cm.sumY := by simpa [CharMouse.updateCursor] using hv
  rcases hcases with rfl | rfl
  · rw [CharMouse.sumX]
    omega
  · rw [CharMouse.sumY]
    omega

theorem OnScreen.packet (h : OnScreen cm) (data : Byte) :
    OnScreen (cm.packet data).1 ∧ (cm.packet data).2.Fits := by
  rw [CharMouse.packet]
  split_ifs
  · exact ⟨⟨h.x, h.y, h.selected⟩, MouseTrace.fits_nil⟩
  · exact ⟨⟨h.x, h.y, h.selected⟩, MouseTrace.fits_nil⟩
  · exact ⟨⟨h.x, h.y, h.selected⟩, MouseTrace.fits_nil⟩
  · exact OnScreen.updateCursor ⟨h.x, h.y, h.selected⟩

/-- **One event** keeps the pointer on the screen, and looks at cells of it only. -/
theorem OnScreen.run (h : OnScreen cm) (op : MouseOp) :
    OnScreen (op.run cm).1 ∧ (op.run cm).2.Fits := by
  cases op with
  | data b =>
    obtain ⟨hpacket, hfits⟩ := h.packet b
    exact ⟨⟨hpacket.x, hpacket.y, hpacket.selected⟩, hfits⟩
  | selection =>
    exact ⟨h, nofun, fun cell => mem_selectCells (h.selected 0) (h.selected 1)⟩
  | pointer =>
    refine ⟨h, nofun, fun cell hmem => ?_⟩
    obtain rfl := List.mem_singleton.mp hmem
    exact h.cell_lt 1

/-- **The mouse stays on the screen.** In every run after `mouse_init`, whatever bytes come and
whatever keys are pressed between them, the coordinates and the ends of the selection are on the
screen after every event; and at the next one the sums fit a `char` and every cell that is read or
written is a cell of the screen. -/
theorem mouse_onScreen (h : mouseLTS.Reach LTS.always cm) :
    OnScreen cm ∧ ∀ op : MouseOp, (op.run cm).2.Fits := by
  have hscreen : OnScreen cm := by
    apply h.invariant
    · rintro cm rfl
      refine ⟨?_, ?_, ?_⟩
      · exact fun _ => (by decide : 0 ≤ (toChar 0).toInt ∧ (toChar 0).toInt < 80)
      · exact fun _ => (by decide : 0 ≤ (toChar 0).toInt ∧ (toChar 0).toInt < 25)
      · exact fun _ => (by decide : (0 : Word).toNat < 2000)
    · rintro cm op cm' hcm - rfl
      exact (hcm.run op).1
  exact ⟨hscreen, fun op => (hscreen.run op).2⟩

theorem reach_mouseOps (ops : List MouseOp) (h : mouseLTS.Reach LTS.always cm) :
    mouseLTS.Reach LTS.always (ops.foldl (fun ms op => (op.run ms).1) cm) := by
  induction ops generalizing cm with
  | nil => exact h
  | cons op ops ih => exact ih (.step h trivial (a := op) rfl)

/-- Three packets, to the right and down with the left button held and then released, with Alt and a
function key and a redrawn pointer between them, and two bytes of a fourth. -/
def sampleDrag : List MouseOp :=
  [.data 0xFA, .data 0x09, .data 0x7F, .data 0x80, .pointer, .data 0x09, .data 0x7F, .selection,
    .data 0x00, .data 0x08, .data 0x7F, .data 0x00, .data 0x09, .data 0x7F]

/-- The mouse after it. -/
def sampleDragged : CharMouse :=
  sampleDrag.foldl (fun ms op => (op.run ms).1) mouseInit.chars

/-- The pointer has been stopped at the bottom and at the right, and at the next byte the sum is
past the edge again. -/
theorem mouse_onScreen_sample : OnScreen sampleDragged ∧
    (sampleDragged.mouseX 0).toInt = 79 ∧ (sampleDragged.mouseY 0).toInt = 24 ∧
    sampleDragged.selected 0 = 1951 ∧ sampleDragged.selected 1 = 1999 ∧
    ((MouseOp.data 0).run sampleDragged).2.Fits ∧
    ((MouseOp.data 0).run sampleDragged).2.sums = [110, 24] := by
  obtain ⟨hscreen, hfits⟩ := mouse_onScreen (reach_mouseOps sampleDrag (.init rfl))
  exact ⟨hscreen, by decide, by decide, by decide, by decide, hfits (.data 0), by decide⟩

/-! ## Packets -/

/-- The mouse after a stream of bytes, and the mouse at each call of `update_cursor`. -/
def readMouse (ms : CharMouse) : List Byte → CharMouse × List CharMouse
  | [] => (ms, [])
  | data :: rest =>
    let (ms, trace) := ms.doHandleMouse data
    let (ms, calls) := readMouse ms rest
    (ms, trace.calls ++ calls)

/-- The complete packets of a stream. -/
def triples : List Byte → List (Byte × Byte × Byte)
  | b0 :: b1 :: b2 :: rest => (b0, b1, b2) :: triples rest
  | _ => []

/-- The stream `d :: bytes` is read as its packets: the cursor is updated once for each of them and
by its second and third byte, and from the second packet on the buttons are the lowest bits of the
first byte of the packet before and of its own. -/
structure PacketsRight (d : Byte) (bytes : List Byte) : Prop where
  once : (readMouse mouseInit.chars (d :: bytes)).2.map (fun ms => (ms.mouseByte 1, ms.mouseByte 2))
    = (triples bytes).map Prod.snd
  buttons : ∀ k p p' ms, (triples bytes)[k]? = some p → (triples bytes)[k + 1]? = some p' →
    (readMouse mouseInit.chars (d :: bytes)).2[k + 1]? = some ms →
    (ms.button 1 = 1 ↔ p'.1.getLsbD 0) ∧ (ms.button 0 = 1 ↔ p.1.getLsbD 0)

/-- What `update_cursor` gets from the packets. -/
def CharMouse.inputs (ms : CharMouse) : Word × Word × Byte × Byte :=
  (ms.button 0, ms.button 1, ms.mouseByte 1, ms.mouseByte 2)

/-- The inputs of the calls for a list of packets, when the first byte before them is `prev`. -/
def packetInputs (prev : Byte) (ps : List (Byte × Byte × Byte)) :
    List (Word × Word × Byte × Byte) :=
  List.zipWith (fun b p => (pressed b, pressed p.1, p.2)) (prev :: ps.map Prod.fst) ps

/-- The remainder of a signed byte is 1 when the byte is odd and its sign bit is not set. -/
theorem pressed_eq_one : ∀ b : Byte, pressed b = 1 ↔ b.getLsbD 0 ∧ ¬ b.getLsbD 7 := by decide

theorem pressed_iff (b : Byte) :
    (pressed b = 1 ↔ b.getLsbD 0) ↔ ¬ (b.getLsbD 0 ∧ b.getLsbD 7) := by
  rw [pressed_eq_one]
  tauto

theorem drawPointer_kept (cm : CharMouse) :
    cm.drawPointer.1.mouseCycle = cm.mouseCycle ∧ cm.drawPointer.1.mouseByte = cm.mouseByte := by
  rw [CharMouse.drawPointer]
  split_ifs
  · exact ⟨rfl, rfl⟩
  · exact ⟨rfl, rfl⟩
  · exact ⟨rfl, rfl⟩
  · dsimp only
    split_ifs <;> exact ⟨rfl, rfl⟩

theorem updateCursor_kept (cm : CharMouse) :
    cm.updateCursor.1.mouseCycle = cm.mouseCycle ∧ cm.updateCursor.1.mouseByte = cm.mouseByte :=
  drawPointer_kept cm.movePointer

theorem readMouse_cons (cm : CharMouse) (data : Byte) (rest : List Byte) :
    (readMouse cm (data :: rest)).2
      = (cm.doHandleMouse data).2.calls ++ (readMouse (cm.doHandleMouse data).1 rest).2 := rfl

/-- The first byte of a packet. -/
theorem doHandleMouse_first (h : cm.mouseCycle = 3) (data : Byte) :
    cm.doHandleMouse data = ({ cm with
      button := update (update cm.button 0 (pressed (cm.mouseByte 0))) 1 (pressed data)
      mouseByte := update cm.mouseByte 0 data
      mouseCycle := 4 }, .nil) := by
  have hnext : (3 + 1 : Word) % 3 + 3 = 4 := by decide
  rw [CharMouse.doHandleMouse, CharMouse.packet, h, if_neg (by decide), if_pos (by decide)]
  dsimp only
  rw [hnext]

/-- The second byte. -/
theorem doHandleMouse_second (h : cm.mouseCycle = 4) (data : Byte) :
    cm.doHandleMouse data = ({ cm with
      mouseByte := update cm.mouseByte 1 data
      mouseCycle := 5 }, .nil) := by
  have hnext : (4 + 1 : Word) % 3 + 3 = 5 := by decide
  rw [CharMouse.doHandleMouse, CharMouse.packet, h, if_neg (by decide), if_neg (by decide),
    if_pos (by decide)]
  dsimp only
  rw [hnext]

/-- The third byte. -/
theorem doHandleMouse_third (h : cm.mouseCycle = 5) (data : Byte) :
    (cm.doHandleMouse data).1.mouseCycle = 3
      ∧ (cm.doHandleMouse data).1.mouseByte = update cm.mouseByte 2 data
      ∧ (cm.doHandleMouse data).2.calls
        = [{ cm with mouseByte := update cm.mouseByte 2 data, mouseCycle := 6 }] := by
  have hcycles : (5 + 1 : Word) = 6 ∧ (6 : Word) % 3 + 3 = 3 := by decide
  have hpacket : cm.packet data
      = CharMouse.updateCursor
          { cm with mouseByte := update cm.mouseByte 2 data, mouseCycle := 6 } := by
    rw [CharMouse.packet, h, if_neg (by decide), if_neg (by decide), if_neg (by decide), hcycles.1]
  obtain ⟨hcycle, hbyte⟩ := updateCursor_kept
    { cm with mouseByte := update cm.mouseByte 2 data, mouseCycle := 6 }
  refine ⟨?_, ?_, ?_⟩
  · show (cm.packet data).1.mouseCycle % 3 + 3 = 3
    rw [hpacket, hcycle]
    exact hcycles.2
  · show (cm.packet data).1.mouseByte = _
    rw [hpacket, hbyte]
  · show (cm.packet data).2.calls = _
    rw [hpacket]
    rfl

/-- **Three bytes are one packet**: the cursor is updated once, and the next byte is again the first
of a packet. -/
theorem readMouse_packet (h : cm.mouseCycle = 3) (b0 b1 b2 : Byte) (rest : List Byte) :
    ∃ call cm' : CharMouse, call.inputs = (pressed (cm.mouseByte 0), pressed b0, b1, b2)
      ∧ cm'.mouseCycle = 3 ∧ cm'.mouseByte 0 = b0
      ∧ (readMouse cm (b0 :: b1 :: b2 :: rest)).2 = call :: (readMouse cm' rest).2 := by
  let cm1 : CharMouse := { cm with
    button := update (update cm.button 0 (pressed (cm.mouseByte 0))) 1 (pressed b0)
    mouseByte := update cm.mouseByte 0 b0
    mouseCycle := 4 }
  let cm2 : CharMouse := { cm1 with
    mouseByte := update cm1.mouseByte 1 b1
    mouseCycle := 5 }
  obtain ⟨hcycle, hbyte, hcalls⟩ := doHandleMouse_third (rfl : cm2.mouseCycle = 5) b2
  refine ⟨{ cm2 with mouseByte := update cm2.mouseByte 2 b2, mouseCycle := 6 },
    (cm2.doHandleMouse b2).1, rfl, hcycle, ?_, ?_⟩
  · rw [hbyte]
    rfl
  · rw [readMouse_cons, doHandleMouse_first h, readMouse_cons, doHandleMouse_second rfl,
      readMouse_cons]
    show (cm2.doHandleMouse b2).2.calls ++ (readMouse (cm2.doHandleMouse b2).1 rest).2 = _
    rw [hcalls]
    rfl

/-- **The calls of a stream**, by induction on its packets. -/
theorem readMouse_inputs (cm : CharMouse) (bytes : List Byte) (h : cm.mouseCycle = 3) :
    (readMouse cm bytes).2.map CharMouse.inputs
      = packetInputs (cm.mouseByte 0) (triples bytes) := by
  induction bytes using triples.induct generalizing cm with
  | case1 b0 b1 b2 rest ih =>
    obtain ⟨call, cm', hinputs, hcycle, hbyte, hcalls⟩ := readMouse_packet h b0 b1 b2 rest
    rw [hcalls, List.map_cons, hinputs, ih cm' hcycle, hbyte, triples]
    rfl
  | case2 bytes hshort =>
    -- two bytes are not a packet yet
    rcases bytes with _ | ⟨b0, _ | ⟨b1, _ | ⟨b2, rest⟩⟩⟩
    · rfl
    · rw [readMouse_cons, doHandleMouse_first h]
      rfl
    · rw [readMouse_cons, doHandleMouse_first h, readMouse_cons, doHandleMouse_second rfl]
      rfl
    · exact absurd rfl (hshort b0 b1 b2 rest)

/-- The first byte after `mouse_init` is dropped. -/
theorem readMouse_mouseInit (d : Byte) (bytes : List Byte) :
    (readMouse mouseInit.chars (d :: bytes)).2.map CharMouse.inputs
      = packetInputs 0 (triples bytes) :=
  readMouse_inputs (mouseInit.chars.doHandleMouse d).1 bytes rfl

theorem map_packetInputs (prev : Byte) (ps : List (Byte × Byte × Byte)) :
    (packetInputs prev ps).map (fun v => v.2.2) = ps.map Prod.snd := by
  rw [packetInputs, List.map_zipWith]
  induction ps generalizing prev with
  | nil => rfl
  | cons p ps ih => rw [List.map_cons, List.zipWith_cons_cons, ih, List.map_cons]

theorem packetInputs_succ {prev : Byte} {ps : List (Byte × Byte × Byte)} {k : ℕ}
    {p p' : Byte × Byte × Byte} (hp : ps[k]? = some p) (hp' : ps[k + 1]? = some p') :
    (packetInputs prev ps)[k + 1]? = some (pressed p.1, pressed p'.1, p'.2) := by
  rw [packetInputs, List.getElem?_zipWith, List.getElem?_cons_succ, List.getElem?_map, hp, hp']
  rfl

/-- The buttons at the update for a packet after the first. -/
theorem button_of_call {d : Byte} {bytes : List Byte} {k : ℕ} {p p' : Byte × Byte × Byte}
    {call : CharMouse} (hp : (triples bytes)[k]? = some p) (hp' : (triples bytes)[k + 1]? = some p')
    (hcall : (readMouse mouseInit.chars (d :: bytes)).2[k + 1]? = some call) :
    call.button 1 = pressed p'.1 ∧ call.button 0 = pressed p.1 := by
  have hinputs : ((readMouse mouseInit.chars (d :: bytes)).2.map CharMouse.inputs)[k + 1]?
      = some call.inputs := by
    rw [List.getElem?_map, hcall]
    rfl
  rw [readMouse_mouseInit, packetInputs_succ hp hp', Option.some_inj] at hinputs
  exact ⟨(congrArg (fun v => v.2.1) hinputs).symm, (congrArg Prod.fst hinputs).symm⟩

theorem exists_call (d : Byte) {bytes : List Byte} {k : ℕ} (hk : k < (triples bytes).length) :
    ∃ call, (readMouse mouseInit.chars (d :: bytes)).2[k]? = some call := by
  have hlength := congrArg List.length (readMouse_mouseInit d bytes)
  rw [List.length_map, packetInputs, List.length_zipWith, List.length_cons, List.length_map]
    at hlength
  exact ⟨_, List.getElem?_eq_getElem (by omega)⟩

/-- **When the packets are read right.** Every three bytes after the first are one update of the
cursor with the second and the third of them; the left button is read right from the second packet
on exactly when no packet has it pressed with the sign bit of the first byte set, or there are not
two packets. -/
theorem packetsRight_iff (d : Byte) (bytes : List Byte) :
    PacketsRight d bytes ↔ (triples bytes).length ≤ 1
      ∨ ∀ p ∈ triples bytes, ¬ (p.1.getLsbD 0 ∧ p.1.getLsbD 7) := by
  constructor
  · intro h
    by_cases hshort : (triples bytes).length ≤ 1
    · exact .inl hshort
    · refine .inr fun p hp => ?_
      obtain ⟨i, hi, rfl⟩ := List.getElem_of_mem hp
      cases i with
      | zero =>
        -- the first packet is the one before the second
        obtain ⟨call, hcall⟩ := exists_call d (by omega : 0 + 1 < (triples bytes).length)
        have hp := List.getElem?_eq_getElem hi
        have hp' := List.getElem?_eq_getElem (by omega : 0 + 1 < (triples bytes).length)
        have hbutton := (h.buttons 0 _ _ call hp hp' hcall).2
        rwa [(button_of_call hp hp' hcall).2, pressed_iff] at hbutton
      | succ k =>
        obtain ⟨call, hcall⟩ := exists_call d hi
        have hp := List.getElem?_eq_getElem (by omega : k < (triples bytes).length)
        have hp' := List.getElem?_eq_getElem hi
        have hbutton := (h.buttons k _ _ call hp hp' hcall).1
        rwa [(button_of_call hp hp' hcall).1, pressed_iff] at hbutton
  · intro hsafe
    refine ⟨?_, ?_⟩
    · have hmap := congrArg (List.map fun v => v.2.2) (readMouse_mouseInit d bytes)
      rw [map_packetInputs, List.map_map] at hmap
      exact hmap
    · intro k p p' call hp hp' hcall
      have hlt : k + 1 < (triples bytes).length := (List.getElem?_eq_some_iff.mp hp').1
      have hbits : ∀ p ∈ triples bytes, ¬ (p.1.getLsbD 0 ∧ p.1.getLsbD 7) :=
        hsafe.resolve_left (by omega)
      obtain ⟨h1, h0⟩ := button_of_call hp hp' hcall
      rw [h1, h0, pressed_iff, pressed_iff]
      exact ⟨hbits p' (List.mem_of_getElem? hp'), hbits p (List.mem_of_getElem? hp)⟩

/-- The left button with a movement that overflows is not seen. -/
theorem not_packetsRight_overflow :
    ¬ PacketsRight 0xFA [0x08, 0x00, 0x00, 0x89, 0x00, 0x00] := by
  intro h
  obtain ⟨call, hcall⟩ := exists_call 0xFA
    (by decide : 0 + 1 < (triples [0x08, 0x00, 0x00, 0x89, 0x00, 0x00]).length)
  have hbutton := (h.buttons 0 (0x08, 0x00, 0x00) (0x89, 0x00, 0x00) call rfl rfl hcall).1
  rw [(button_of_call rfl rfl hcall).1] at hbutton
  exact absurd (hbutton.mpr rfl) (by decide)

end HieUnix
