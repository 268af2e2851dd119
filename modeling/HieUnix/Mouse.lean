import HieUnix.ScreenMirror

/-!
# The mouse (`mouse.c`)

`do_handle_mouse` gets a packet of three bytes, one interrupt each, and then moves the pointer. It
draws the pointer and the selection with attribute bytes of the video memory, so that it changes no
text (`Mirrored.doHandleMouse`); a click on one cell makes the command of `run_prog`.
-/

namespace HieUnix

open Function

/-! ## The pointer -/

/-- `mouse_byte[0] % 2 == 1`, where the byte has a sign. -/
def pressed (b : Byte) : Word := if b.toInt.tmod 2 = 1 then 1 else 0

/-- A coordinate moved back onto the screen of size `n`. -/
def clampTo (n v : ℤ) : ℤ :=
  let v := if n ≤ v then n - 1 else v
  if v < 0 then 0 else v

theorem clampTo_mem {n : ℤ} (hn : 0 < n) (v : ℤ) : 0 ≤ clampTo n v ∧ clampTo n v < n := by
  rw [clampTo]
  split_ifs <;> omega

theorem clampTo_numCols (v : ℤ) : 0 ≤ clampTo numCols v ∧ clampTo numCols v < numCols :=
  clampTo_mem (by decide) v

theorem clampTo_numRows (v : ℤ) : 0 ≤ clampTo numRows v ∧ clampTo numRows v < numRows :=
  clampTo_mem (by decide) v

theorem update_mem {n v : ℤ} {f : Fin 2 → ℤ} (hf : ∀ i, 0 ≤ f i ∧ f i < n) (j : Fin 2)
    (hv : 0 ≤ v ∧ v < n) (i : Fin 2) : 0 ≤ update f j v i ∧ update f j v i < n := by
  rw [update_apply]
  split_ifs
  · exact hv
  · exact hf i

namespace Mouse

/-- The cell of the pointer, before the movement for 0 and after it for 1. -/
def cell (ms : Mouse) (i : Fin 2) : Word := BitVec.ofInt 32 (ms.mouseY i * numCols + ms.mouseX i)

theorem cell_lt (ms : Mouse) (i : Fin 2) : (ms.cell i).toNat < numRows * numCols := by
  have hx : 0 ≤ ms.mouseX i ∧ ms.mouseX i < 80 := ms.mouseX_mem i
  have hy : 0 ≤ ms.mouseY i ∧ ms.mouseY i < 25 := ms.mouseY_mem i
  have hcell : ((ms.cell i).toNat : ℤ) = 80 * ms.mouseY i + ms.mouseX i := toNat_position hx hy
  show _ < 2000
  omega

theorem update_selected_lt (ms : Mouse) (i j : Fin 2) :
    (update ms.selected i (ms.cell 1) j).toNat < numRows * numCols := by
  rw [update_apply]
  split_ifs
  · exact ms.cell_lt 1
  · exact ms.selected_lt j

/-- The pointer moved by the packet. -/
def movePointer (ms : Mouse) : Mouse :=
  { ms with
    mouseX := update ms.mouseX 1 (clampTo numCols (ms.mouseX 0 + (ms.mouseByte 1).toInt.tdiv 4))
    mouseY := update ms.mouseY 1 (clampTo numRows (ms.mouseY 0 - (ms.mouseByte 2).toInt.tdiv 4))
    mouseX_mem := update_mem ms.mouseX_mem 1 (clampTo_numCols _)
    mouseY_mem := update_mem ms.mouseY_mem 1 (clampTo_numRows _) }

/-- `selected[i] = new_pos`. -/
def setSelected (ms : Mouse) (i : Fin 2) : Mouse :=
  { ms with
    selected := update ms.selected i (ms.cell 1)
    selected_lt := ms.update_selected_lt i }

/-- The position that was new is the old one. -/
def keepPointer (ms : Mouse) : Mouse :=
  { ms with
    mouseX := update ms.mouseX 0 (ms.mouseX 1)
    mouseY := update ms.mouseY 0 (ms.mouseY 1)
    mouseX_mem := update_mem ms.mouseX_mem 0 (ms.mouseX_mem 1)
    mouseY_mem := update_mem ms.mouseY_mem 0 (ms.mouseY_mem 1) }

end Mouse

/-- The terminals with another state of the mouse. -/
def Tty.setMouse (tty : Tty) (ms : Mouse) : Tty := { tty with scr := { tty.scr with mouse := ms } }

/-- The end of a selection is a click when the selection is one cell. -/
def endSelection (tty : Tty) : Tty :=
  let ms := tty.scr.mouse
  if ms.selected 0 = ms.selected 1 then runProg tty (ms.cell 1) else tty

/-- The branches of `update_cursor`: a button that is pressed starts a selection, one that is held
extends it, none moves the pointer, and one that is let go ends the selection. -/
def drawPointer (tty : Tty) : Tty :=
  let ms := tty.scr.mouse
  if ms.button 1 ≠ 0 then
    if ms.button 0 = 0 then
      let tty := { tty with scr := select tty.scr (ms.selected 0) (ms.selected 1) 0 }
      tty.setMouse (ms.setSelected 0)
    else
      let tty := { tty with scr := select tty.scr (ms.cell 0) (ms.cell 1) 0 }
      { tty with scr := select tty.scr (ms.selected 0) (ms.cell 1) 1 }
  else if ms.button 0 = 0 then
    let tty := { tty with scr := updateAttribute tty.scr (ms.cell 0) 2 }
    { tty with scr := updateAttribute tty.scr (ms.cell 1) 2 }
  else endSelection (tty.setMouse (ms.setSelected 1))

/-- `update_cursor`. -/
def updateCursor (tty : Tty) : Tty :=
  let tty := tty.setMouse tty.scr.mouse.movePointer
  let tty := drawPointer tty
  tty.setMouse tty.scr.mouse.keepPointer

/-! ## The handler -/

/-- The line of the mouse. -/
abbrev mouseIrqLine : ℕ := 12

/-- `do_handle_mouse` up to the end of the interrupt, with the byte at the data port. -/
def mousePacket (tty : Tty) (data : Byte) : Tty :=
  let ms := tty.scr.mouse
  if ms.mouseCycle = 0 then tty.setMouse { ms with mouseCycle := 3 }
  else if ms.mouseCycle % 3 = 0 then
    tty.setMouse { ms with
      button := update (update ms.button 0 (pressed (ms.mouseByte 0))) 1 (pressed data)
      mouseByte := update ms.mouseByte 0 data
      mouseCycle := ms.mouseCycle + 1 }
  else if ms.mouseCycle % 3 = 1 then
    tty.setMouse { ms with
      mouseByte := update ms.mouseByte 1 data
      mouseCycle := ms.mouseCycle + 1 }
  else
    updateCursor (tty.setMouse { ms with
      mouseByte := update ms.mouseByte 2 data
      mouseCycle := ms.mouseCycle + 1 })

/-- `do_handle_mouse`. -/
def doHandleMouse (tty : Tty) (data : Byte) : Tty :=
  let tty := mousePacket tty data
  let ms := tty.scr.mouse
  acknowledge (tty.setMouse { ms with mouseCycle := ms.mouseCycle % 3 + 3 }) mouseIrqLine

/-! ## What the mouse leaves alone -/

variable {tty tty' : Tty}

theorem Mirrored.setMouse (h : Mirrored tty) (ms : Mouse) : Mirrored (tty.setMouse ms) := by
  have hm : Mirrors tty.scr tty.active tty.con.currBuffPos := h
  exact ⟨hm.currVidMem, hm.chars, fun t => ⟨(hm.cursor t).x, (hm.cursor t).y⟩, hm.room, hm.pos_le⟩

theorem Mirrored.select (h : Mirrored tty) {pos1 pos2 : Word} (h1 : pos1.toNat < 2000)
    (h2 : pos2.toNat < 2000) (white : Word) :
    Mirrored { tty with scr := select tty.scr pos1 pos2 white } :=
  h.congr rfl (sameText_select h1 h2 white tty.scr)

theorem Mirrored.updateAttribute (h : Mirrored tty) {position : Word}
    (hpos : position.toNat < 2000) (attrib : Word) :
    Mirrored { tty with scr := updateAttribute tty.scr position attrib } :=
  h.congr rfl (sameText_updateAttribute hpos attrib)

theorem Mirrored.endSelection (h : Mirrored tty) : Mirrored (endSelection tty) := by
  rw [HieUnix.endSelection]
  split_ifs
  · exact h
  · exact h

theorem Mirrored.drawPointer (h : Mirrored tty) : Mirrored (drawPointer tty) := by
  have hcell := tty.scr.mouse.cell_lt
  have hselected := tty.scr.mouse.selected_lt
  rw [HieUnix.drawPointer]
  split_ifs
  · exact Mirrored.setMouse (h.select (hselected 0) (hselected 1) 0) _
  · exact Mirrored.select (h.select (hcell 0) (hcell 1) 0) (hselected 0) (hcell 1) 1
  · exact Mirrored.updateAttribute (h.updateAttribute (hcell 0) 2) (hcell 1) 2
  · exact (h.setMouse _).endSelection

theorem Mirrored.mousePacket (h : Mirrored tty) (data : Byte) :
    Mirrored (mousePacket tty data) := by
  rw [HieUnix.mousePacket]
  split_ifs
  · exact h.setMouse _
  · exact h.setMouse _
  · exact h.setMouse _
  · rw [updateCursor]
    exact ((h.setMouse _).setMouse _).drawPointer.setMouse _

/-- **The mouse changes no text**: the screen still mirrors the active terminal. -/
theorem Mirrored.doHandleMouse (h : Mirrored tty) (data : Byte) :
    Mirrored (doHandleMouse tty data) :=
  (h.mousePacket data).setMouse _

theorem drawPointer_pic (tty : Tty) : (drawPointer tty).pic = tty.pic := by
  rw [drawPointer]
  split_ifs
  · rfl
  · rfl
  · rfl
  · rw [endSelection]
    split_ifs <;> rfl

theorem mousePacket_pic (tty : Tty) (data : Byte) : (mousePacket tty data).pic = tty.pic := by
  rw [mousePacket]
  split_ifs
  · rfl
  · rfl
  · rfl
  · exact drawPointer_pic _

/-- The interrupt is ended, and the line is left unmasked. -/
theorem doHandleMouse_pic (tty : Tty) (data : Byte) :
    (doHandleMouse tty data).pic = enableIrq (sendEoi tty.pic mouseIrqLine) mouseIrqLine := by
  rw [← mousePacket_pic tty data]
  rfl

end HieUnix
