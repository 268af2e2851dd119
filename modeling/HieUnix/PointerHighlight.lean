import HieUnix.MouseBytes
import Mathlib.Data.Set.SymmDiff
import Mathlib.Order.ConditionallyCompleteLattice.Basic

/-!
# The highlight of the pointer (`mouse.c`, `lib.c`)

`update_cursor` draws the pointer by toggling two attributes: that of the cell it leaves and that of
the cell it gets to. The pair of toggles keeps the *strays*, the cells in which the screen differs
from one that highlights the pointer alone, whatever they are. A character is written with the
attribute of a cell that is not highlighted, so that it makes the pointer's cell a stray and repairs
any other; a scroll moves the strays up, repairs the one under the pointer and keeps those of the
bottom row. After `mouse_init` the pointer is not drawn, so that there is a stray at the start.

After a packet the pointer's cell is the only one highlighted exactly when there are no strays
(`onlyPointer_iff`), and what the strays are can be told from the cursor and the pointer alone.
-/

namespace HieUnix

open Function
open scoped symmDiff

/-! ## Highlighted cells -/

/-- A cell of the screen. -/
def Visible (k : ℤ) : Prop := 0 ≤ k ∧ k < 2000

/-- The attribute of cell `k` of the video memory. -/
def attributeOf (m : ℤ → Byte) (k : ℤ) : Byte := m (video + (2 * k + 1))

/-- The cells of `H` have the attribute `MOUSE_ATTRIB`, and the others `ATTRIB`. -/
structure Highlights (m : ℤ → Byte) (H : Set ℤ) : Prop where
  mem : ∀ k, Visible k → k ∈ H → attributeOf m k = mouseAttrib
  notMem : ∀ k, Visible k → k ∉ H → attributeOf m k = attribByte

/-- The cell of the pointer as an integer. -/
def Mouse.pointer (ms : Mouse) (i : Fin 2) : ℤ := (ms.cell i).toNat

/-- Exactly one cell of the screen has the attribute `MOUSE_ATTRIB`, and it is the cell under the
pointer. -/
def OnlyPointer (s : Screen) : Prop :=
  ∀ k, Visible k → (attributeOf s.mem k = mouseAttrib ↔ k = s.mouse.pointer 1)

/-- The cells `H` after the rows have moved up by one. The bottom row keeps its attributes. -/
def shiftUp (H : Set ℤ) : Set ℤ := {k | 0 ≤ k ∧ k < 1920 ∧ k + 80 ∈ H ∨ 1920 ≤ k ∧ k ∈ H}

variable {m m' : ℤ → Byte} {H D : Set ℤ} {s : Screen} {a : Term} {c : Byte} {k : ℤ}

theorem Mouse.visible_pointer (ms : Mouse) (i : Fin 2) : Visible (ms.pointer i) := by
  have hlt : (ms.cell i).toNat < 2000 := ms.cell_lt i
  rw [Visible, Mouse.pointer]
  omega

/-- The pointer is on the screen, so that one cell is highlighted and not none. -/
theorem OnlyPointer.existsUnique (h : OnlyPointer s) :
    ∃! k, Visible k ∧ attributeOf s.mem k = mouseAttrib := by
  have hpointer := s.mouse.visible_pointer 1
  refine ⟨s.mouse.pointer 1, ⟨hpointer, (h _ hpointer).mpr rfl⟩, ?_⟩
  rintro k ⟨hk, hattr⟩
  exact (h k hk).mp hattr

theorem Highlights.mem_iff (h : Highlights m H) (hk : Visible k) :
    attributeOf m k = mouseAttrib ↔ k ∈ H := by
  refine ⟨fun hattr => ?_, h.mem k hk⟩
  by_contra hnot
  rw [h.notMem k hk hnot] at hattr
  exact absurd hattr (by decide)

/-- The attributes are the only bytes that count. -/
theorem Highlights.congr (h : Highlights m H)
    (hcell : ∀ k, Visible k → attributeOf m' k = attributeOf m k) : Highlights m' H := by
  constructor
  · intro k hk hmem
    rw [hcell k hk]
    exact h.mem k hk hmem
  · intro k hk hnot
    rw [hcell k hk]
    exact h.notMem k hk hnot

/-! ## What the mouse draws -/

theorem attributeAddr_eq {cell : Word} (hcell : cell.toNat < 2000) :
    attributeAddr cell = video + (2 * (cell.toNat : ℤ) + 1) := by
  rw [attributeAddr, toNat_shiftLeft_one hcell]
  omega

/-- `update_attribute` stores the attribute of its cell. -/
theorem updateAttribute_store {cell : Word} (hcell : cell.toNat < 2000) (attrib : Word) :
    (updateAttribute s cell attrib).mem = update s.mem (video + (2 * (cell.toNat : ℤ) + 1))
      (if (attrib = 2 ∧ attributeOf s.mem cell.toNat = attribByte) ∨ attrib = 1 then mouseAttrib
        else attribByte) := by
  have haddr : video + ((cell <<< 1).toNat : ℤ) + 1 = video + (2 * (cell.toNat : ℤ) + 1) :=
    attributeAddr_eq hcell
  rw [updateAttribute, attributeOf, haddr]
  split_ifs <;> rfl

theorem attributeOf_update (m : ℤ → Byte) (k j : ℤ) (v : Byte) :
    attributeOf (update m (video + (2 * k + 1)) v) j = if j = k then v else attributeOf m j := by
  rw [attributeOf, update_apply, attributeOf]
  congr 1
  exact propext (by omega)

/-- Attribute 2 toggles a cell. -/
theorem Highlights.toggle (h : Highlights s.mem H) {cell : Word} (hcell : cell.toNat < 2000) :
    Highlights (updateAttribute s cell 2).mem (H ∆ {(cell.toNat : ℤ)}) := by
  have hvisible : Visible cell.toNat := by
    rw [Visible]
    omega
  rw [updateAttribute_store hcell]
  constructor
  · intro k hk hmem
    rw [attributeOf_update]
    split_ifs with hself hon
    · rfl
    · -- it was highlighted, so that it is no more
      subst hself
      have hin : (cell.toNat : ℤ) ∈ H := by
        by_contra hnot
        exact hon (.inl ⟨rfl, h.notMem _ hk hnot⟩)
      rcases hmem with hmem | hmem
      · exact absurd rfl hmem.2
      · exact absurd hin hmem.2
    · rcases hmem with hmem | hmem
      · exact h.mem k hk hmem.1
      · exact absurd hmem.1 hself
  · intro k hk hnot
    rw [attributeOf_update]
    split_ifs with hself hon
    · subst hself
      have hout : (cell.toNat : ℤ) ∉ H := by
        intro hin
        rw [h.mem _ hk hin] at hon
        exact absurd hon (by decide)
      exact absurd (.inr ⟨rfl, hout⟩) hnot
    · rfl
    · exact h.notMem k hk fun hin => hnot (.inl ⟨hin, hself⟩)

/-- Attribute 0 takes the highlight of a cell away. -/
theorem Highlights.remove (h : Highlights s.mem H) {cell : Word} (hcell : cell.toNat < 2000) :
    Highlights (updateAttribute s cell 0).mem (H \ {(cell.toNat : ℤ)}) := by
  have hoff : ¬ ((0 : Word) = 2 ∧ attributeOf s.mem cell.toNat = attribByte ∨ (0 : Word) = 1) := by
    rintro (⟨htwo, -⟩ | hone)
    · exact absurd htwo (by decide)
    · exact absurd hone (by decide)
  rw [updateAttribute_store hcell, if_neg hoff]
  constructor
  · intro k hk hmem
    have hne : k ≠ cell.toNat := hmem.2
    rw [attributeOf_update, if_neg hne]
    exact h.mem k hk hmem.1
  · intro k hk hnot
    rw [attributeOf_update]
    split_ifs with hself
    · rfl
    · exact h.notMem k hk fun hin => hnot ⟨hin, hself⟩

/-! ## What a character does -/

/-- A character is written with the attribute of a cell that is not highlighted. -/
theorem Highlights.putCell (h : Highlights m H) (k : ℤ) (c : Byte) :
    Highlights (putCell m video k c) (H \ {k}) := by
  have hcell : ∀ j, attributeOf (HieUnix.putCell m video k c) j
      = if j = k then attribByte else attributeOf m j := by
    intro j
    rw [attributeOf, putCell_apply, attributeOf]
    by_cases hjk : j = k
    · rw [if_pos (by omega), if_pos hjk]
    · rw [if_neg (by omega), if_neg (by omega), if_neg hjk]
  constructor
  · intro j hj hmem
    have hne : j ≠ k := hmem.2
    rw [hcell, if_neg hne]
    exact h.mem j hj hmem.1
  · intro j hj hnot
    rw [hcell]
    split_ifs with hself
    · rfl
    · exact h.notMem j hj fun hin => hnot ⟨hin, hself⟩

/-- The copy of the character on the backup page is no cell of the screen. -/
theorem Highlights.putCell_page (h : Highlights m H) (a : Term) (hk : 0 ≤ k) (c : Byte) :
    Highlights (HieUnix.putCell m (pageBase a) k c) H := by
  have hpage := pageBase_eq a
  apply h.congr
  intro j hj
  rw [Visible] at hj
  rw [attributeOf, HieUnix.putCell, update_of_ne (by omega), update_of_ne (by omega), attributeOf]

/-- The video memory scrolled up. -/
theorem Highlights.scrollPage (h : Highlights m H) (x : ℤ) :
    Highlights (scrollPage m video x) (shiftUp H) := by
  have hcell : ∀ j, Visible j → attributeOf (HieUnix.scrollPage m video x) j
      = if j < 1920 then attributeOf m (j + 80) else attributeOf m j := by
    intro j hj
    rw [Visible] at hj
    have hnext : 2 * j + 1 + 160 = 2 * (j + 80) + 1 := by omega
    rw [attributeOf, scrollPage_apply, if_neg (by omega), hnext, attributeOf, attributeOf]
    congr 1
    exact propext (by omega)
  constructor
  · intro j hj hmem
    rw [hcell j hj]
    rw [Visible] at hj
    rcases hmem with ⟨-, hlt, hmem⟩ | ⟨hle, hmem⟩
    · rw [if_pos hlt]
      exact h.mem _ (by rw [Visible]; omega) hmem
    · rw [if_neg (by omega)]
      exact h.mem j hj hmem
  · intro j hj hnot
    rw [hcell j hj]
    rw [Visible] at hj
    split_ifs with hlt
    · exact h.notMem _ (by rw [Visible]; omega) fun hmem => hnot (.inl ⟨hj.1, hlt, hmem⟩)
    · exact h.notMem j hj fun hmem => hnot (.inr ⟨by omega, hmem⟩)

/-- The backup page scrolled up. -/
theorem Highlights.scrollPage_page (h : Highlights m H) (a : Term) (x : ℤ) :
    Highlights (HieUnix.scrollPage m (pageBase a) x) H := by
  have hpage := pageBase_eq a
  apply h.congr
  intro j hj
  rw [Visible] at hj
  obtain ⟨i, hi⟩ : ∃ i, video + (2 * j + 1) = pageBase a + i :=
    ⟨video + (2 * j + 1) - pageBase a, by omega⟩
  rw [attributeOf, hi, scrollPage_apply, if_neg (by omega), if_neg (by omega), ← hi, attributeOf]

/-- `scroll_up` takes the highlight of the pointer away first, and toggles it afterwards. -/
theorem Highlights.scrollUp (h : Highlights s.mem H) (hx : 0 ≤ s.screenX a ∧ s.screenX a ≤ 80)
    (hy : s.screenY a = 24) :
    Highlights (scrollUp a s (s.screenX a) a).mem
      (shiftUp (H \ {s.mouse.pointer 1}) ∆ {s.mouse.pointer 1}) := by
  have hremoved : Highlights (removeCursor s).mem (H \ {s.mouse.pointer 1}) :=
    h.remove s.mouse.pos_lt
  have hscrolled : Highlights ((removeCursor s).scrolled a).mem
      (shiftUp (H \ {s.mouse.pointer 1})) :=
    (hremoved.scrollPage_page a _).scrollPage _
  have hmouse : ((removeCursor s).scrolled a).mouse = s.mouse := updateAttribute_mouse s _ _
  have hreset := hscrolled.toggle (Mouse.pos_lt ((removeCursor s).scrolled a).mouse)
  rw [scrollUp_self_eq hx hy, resetCursor]
  rw [hmouse] at hreset ⊢
  exact hreset

/-! ## Strays -/

/-- The strays when a character is written to cell `k`, with the pointer at cell `p`. -/
def writeStrays (p k : ℤ) (D : Set ℤ) : Set ℤ := if k = p then insert k D else D \ {k}

/-- The strays when the screen scrolls. -/
def scrollStrays (p : ℤ) (D : Set ℤ) : Set ℤ := shiftUp (D \ {p})

/-- The strays after a character at the cursor `(x, y)`, with the pointer at cell `p`. -/
def straysPutc (p x y : ℤ) (c : Byte) (D : Set ℤ) : Set ℤ :=
  if isNewline c then
    if y = 24 then scrollStrays p D else D
  else if x = 79 ∧ y = 24 then scrollStrays p (writeStrays p (80 * y + x) D)
  else writeStrays p (80 * y + x) D

theorem diff_symmDiff_pointer (D : Set ℤ) (p k : ℤ) :
    D ∆ {p} \ {k} = writeStrays p k D ∆ {p} := by
  ext j
  rw [writeStrays]
  split_ifs with hself
  · subst hself
    simp only [Set.mem_sdiff, Set.mem_symmDiff, Set.mem_singleton_iff, Set.mem_insert_iff]
    tauto
  · have hne : j = p → j ≠ k := fun hp hk => hself (hk.symm.trans hp)
    simp only [Set.mem_sdiff, Set.mem_symmDiff, Set.mem_singleton_iff]
    tauto

theorem symmDiff_pointer_diff (D : Set ℤ) (p : ℤ) : D ∆ {p} \ {p} = D \ {p} := by
  ext j
  simp only [Set.mem_sdiff, Set.mem_symmDiff, Set.mem_singleton_iff]
  tauto

/-- What a scroll does to the highlighted cells, it does to the strays. -/
theorem Highlights.scrollUp_strays (h : Highlights s.mem (D ∆ {s.mouse.pointer 1}))
    (hx : 0 ≤ s.screenX a ∧ s.screenX a ≤ 80) (hy : s.screenY a = 24) :
    Highlights (HieUnix.scrollUp a s (s.screenX a) a).mem
      (scrollStrays (s.mouse.pointer 1) D ∆ {s.mouse.pointer 1}) := by
  have hscrolled := h.scrollUp hx hy
  rw [symmDiff_pointer_diff] at hscrolled
  exact hscrolled

/-- The bytes of a character make its cell a stray or repair it. -/
theorem Highlights.stored (h : Highlights s.mem (D ∆ {s.mouse.pointer 1}))
    (hg : s.CursorInGrid a) (c : Byte) :
    Highlights (s.stored a c).mem
      (writeStrays (s.mouse.pointer 1) (80 * s.screenY a + s.screenX a) D
        ∆ {s.mouse.pointer 1}) := by
  have hx := hg.x
  have hy := hg.y
  rw [← diff_symmDiff_pointer]
  exact (h.putCell_page a (by omega) c).putCell _ c

/-- **A character changes the strays as `straysPutc` says.** -/
theorem Highlights.terminalPutc (h : Highlights s.mem (D ∆ {s.mouse.pointer 1}))
    (hg : s.CursorInGrid a) (c : Byte) :
    Highlights (terminalPutc a a s c).mem
      (straysPutc (s.mouse.pointer 1) (s.screenX a) (s.screenY a) c D
        ∆ {s.mouse.pointer 1}) := by
  have hx := hg.x
  have hy := hg.y
  rw [straysPutc]
  cases hc : isNewline c with
  | true =>
    have hterm : HieUnix.terminalPutc a a s c = newline a s a := if_pos hc
    rw [hterm, if_pos rfl]
    split_ifs with hlast
    · rw [newline_of_last hlast]
      exact h.scrollUp_strays ⟨hx.1, by omega⟩ hlast
    · rw [newline_of_ne_last hlast]
      exact h
  | false =>
    have hX := s.stored_screenX a c
    have hY : (s.stored a c).screenY a = s.screenY a := rfl
    have hstored := h.stored hg c
    rw [terminalPutc_self_char hc, if_neg Bool.false_ne_true]
    by_cases hfull : s.screenX a = 79
    · by_cases hlast : s.screenY a = 24
      -- the last cell of the screen is written before the scroll
      · rw [if_pos ⟨hfull, hlast⟩, advance_of_last (by omega) (hY.trans hlast)]
        exact Highlights.scrollUp_strays hstored (by omega) (hY.trans hlast)
      · rw [if_neg (fun hend => hlast hend.2), advance_of_full (by omega) (by omega)]
        exact hstored
    · rw [if_neg (fun hend => hfull hend.1), advance_of_lt (by omega) (by omega)]
      exact hstored

/-! ## A packet -/

/-- No button is pressed, as far as the driver has read. -/
structure Mouse.Released (ms : Mouse) : Prop where
  button : ∀ i, ms.button i = 0
  last : pressed (ms.mouseByte 0) = 0

/-- The strays of a screen of which terminal `a` is active are `D`. -/
structure Strays (a : Term) (s : Screen) (D : Set ℤ) : Prop where
  highlights : Highlights s.mem (D ∆ {s.mouse.pointer 1})
  visible : ∀ k ∈ D, Visible k
  kept : s.mouse.pointer 0 = s.mouse.pointer 1
  released : s.mouse.Released
  currVidMem : s.currVidMem = pageBase a
  cursor : s.CursorInGrid a

/-- **The pointer is the only cell highlighted when there are no strays.** -/
theorem Strays.onlyPointer_iff_empty (h : Strays a s D) : OnlyPointer s ↔ D = ∅ := by
  constructor
  · intro honly
    refine Set.eq_empty_of_forall_notMem fun k hk => ?_
    have hvisible := h.visible k hk
    have hattr := honly k hvisible
    rw [h.highlights.mem_iff hvisible, Set.mem_symmDiff, Set.mem_singleton_iff] at hattr
    tauto
  · rintro rfl k hk
    rw [h.highlights.mem_iff hk, Set.mem_symmDiff, Set.mem_singleton_iff]
    simp only [Set.mem_empty_iff_false]
    tauto

theorem Mouse.pointer_congr {ms ms' : Mouse} {i j : Fin 2} (hX : ms'.mouseX i = ms.mouseX j)
    (hY : ms'.mouseY i = ms.mouseY j) : ms'.pointer i = ms.pointer j := by
  rw [Mouse.pointer, Mouse.cell, hX, hY, Mouse.pointer, Mouse.cell]

theorem Mouse.movePointer_pointer (ms : Mouse) : ms.movePointer.pointer 0 = ms.pointer 0 :=
  Mouse.pointer_congr rfl rfl

theorem Mouse.keepPointer_pointer (ms : Mouse) (i : Fin 2) :
    ms.keepPointer.pointer i = ms.pointer 1 := by
  revert i
  rw [Fin.forall_fin_two]
  exact ⟨Mouse.pointer_congr rfl rfl, Mouse.pointer_congr rfl rfl⟩

/-- Bytes that do not end a packet move nothing. -/
theorem Strays.setMouse (h : Strays a s D) {ms : Mouse} (hX : ms.mouseX = s.mouse.mouseX)
    (hY : ms.mouseY = s.mouse.mouseY) (hreleased : ms.Released) :
    Strays a { s with mouse := ms } D := by
  have hpointer : ∀ i, ms.pointer i = s.mouse.pointer i := fun i =>
    Mouse.pointer_congr (congrFun hX i) (congrFun hY i)
  refine ⟨?_, h.visible, ?_, hreleased, h.currVidMem, ⟨h.cursor.x, h.cursor.y⟩⟩
  · show Highlights s.mem (D ∆ {ms.pointer 1})
    rw [hpointer]
    exact h.highlights
  · show ms.pointer 0 = ms.pointer 1
    rw [hpointer, hpointer]
    exact h.kept

variable {tty : Tty} {data : Byte}

/-- With no button pressed the pointer is moved by two toggles. -/
theorem drawPointer_of_released (tty : Tty) (h : tty.scr.mouse.Released) :
    drawPointer tty = { tty with
      scr := updateAttribute (updateAttribute tty.scr (tty.scr.mouse.cell 0) 2)
        (tty.scr.mouse.cell 1) 2 } := by
  rw [drawPointer]
  dsimp only
  rw [h.button 1, if_neg (not_not_intro rfl), h.button 0, if_pos rfl]

/-- **A packet keeps the strays**: the two toggles take the highlight from where the pointer was and
put it where it is. -/
theorem Strays.updateCursor (tty : Tty) (h : Strays a tty.scr D) :
    Strays a (updateCursor tty).scr D := by
  let moved : Screen := { tty.scr with mouse := tty.scr.mouse.movePointer }
  let drawn : Screen := updateAttribute (updateAttribute moved (moved.mouse.cell 0) 2)
    (moved.mouse.cell 1) 2
  have hreleased : moved.mouse.Released := ⟨h.released.button, h.released.last⟩
  have hmouse : drawn.mouse = moved.mouse := by
    rw [updateAttribute_mouse, updateAttribute_mouse]
  -- the pointer is moved, drawn, and its position kept for the next packet
  have hscr : (HieUnix.updateCursor tty).scr = { drawn with mouse := drawn.mouse.keepPointer } := by
    rw [HieUnix.updateCursor, drawPointer_of_released _ hreleased]
    rfl
  have hmoved : Highlights moved.mem (D ∆ {moved.mouse.pointer 0}) := by
    show Highlights tty.scr.mem (D ∆ {tty.scr.mouse.movePointer.pointer 0})
    rw [Mouse.movePointer_pointer, h.kept]
    exact h.highlights
  have hdrawn : Highlights drawn.mem (D ∆ {moved.mouse.pointer 1}) := by
    -- the first toggle undoes the highlight of the cell the pointer leaves
    have htoggled := (hmoved.toggle (moved.mouse.cell_lt 0)).toggle (moved.mouse.cell_lt 1)
    rw [Mouse.pointer, symmDiff_symmDiff_cancel_right] at htoggled
    exact htoggled
  have hcursor : drawn.CursorInGrid a := by
    apply h.cursor.congr
    · rw [updateAttribute_screenX, updateAttribute_screenX]
    · rw [updateAttribute_screenY, updateAttribute_screenY]
  rw [hscr, hmouse]
  refine ⟨?_, h.visible, ?_, ⟨h.released.button, h.released.last⟩, ?_, ⟨hcursor.x, hcursor.y⟩⟩
  · show Highlights drawn.mem (D ∆ {moved.mouse.keepPointer.pointer 1})
    rw [Mouse.keepPointer_pointer]
    exact hdrawn
  · show moved.mouse.keepPointer.pointer 0 = moved.mouse.keepPointer.pointer 1
    rw [Mouse.keepPointer_pointer, Mouse.keepPointer_pointer]
  · show drawn.currVidMem = _
    rw [updateAttribute_currVidMem, updateAttribute_currVidMem]
    exact h.currVidMem

/-- The next byte of the mouse is the first of a packet. -/
def Mouse.AtFirst (ms : Mouse) : Prop := ms.mouseCycle ≠ 0 ∧ ms.mouseCycle % 3 = 0

/-- The next byte of the mouse is the last of a packet. -/
def Mouse.AtThird (ms : Mouse) : Prop := ms.mouseCycle % 3 = 2

theorem Strays.mousePacket (h : Strays a tty.scr D)
    (hdata : tty.scr.mouse.AtFirst → pressed data = 0) :
    Strays a (mousePacket tty data).scr D := by
  have hbutton := h.released.button
  have hlast := h.released.last
  rw [HieUnix.mousePacket]
  split_ifs with hzero hfirst hsecond
  · exact h.setMouse rfl rfl ⟨hbutton, hlast⟩
  -- the first byte: the button of the packet before is known to be up, and so is its own
  · have hnone := hdata ⟨hzero, hfirst⟩
    refine h.setMouse rfl rfl ⟨fun i => ?_, ?_⟩
    · dsimp only
      rw [hlast, hnone, update_apply, update_apply, hbutton, ite_self, ite_self]
    · show pressed (update tty.scr.mouse.mouseByte 0 data 0) = 0
      rw [update_self]
      exact hnone
  · exact h.setMouse rfl rfl ⟨hbutton, hlast⟩
  · exact Strays.updateCursor _ (h.setMouse rfl rfl ⟨hbutton, hlast⟩)

theorem Strays.doHandleMouse (h : Strays a tty.scr D)
    (hdata : tty.scr.mouse.AtFirst → pressed data = 0) :
    Strays a (doHandleMouse tty data).scr D := by
  have hpacket := h.mousePacket hdata
  exact hpacket.setMouse rfl rfl ⟨hpacket.released.button, hpacket.released.last⟩

/-! ## A character of the active terminal -/

theorem visible_writeStrays {p : ℤ} (hk : Visible k) (hD : ∀ j ∈ D, Visible j) :
    ∀ j ∈ writeStrays p k D, Visible j := by
  intro j hj
  rw [writeStrays] at hj
  split_ifs at hj
  · rcases hj with rfl | hj
    · exact hk
    · exact hD j hj
  · exact hD j hj.1

theorem visible_scrollStrays {p : ℤ} (hD : ∀ j ∈ D, Visible j) :
    ∀ j ∈ scrollStrays p D, Visible j := by
  rintro j (⟨hle, hlt, -⟩ | ⟨-, hj⟩)
  · exact ⟨hle, by omega⟩
  · exact hD j hj.1

theorem visible_straysPutc {p x y : ℤ} (hx : 0 ≤ x ∧ x < 80) (hy : 0 ≤ y ∧ y < 25) (c : Byte)
    (hD : ∀ j ∈ D, Visible j) : ∀ j ∈ straysPutc p x y c D, Visible j := by
  have hk : Visible (80 * y + x) := ⟨by omega, by omega⟩
  rw [straysPutc]
  split_ifs
  · exact visible_scrollStrays hD
  · exact hD
  · exact visible_scrollStrays (visible_writeStrays hk hD)
  · exact visible_writeStrays hk hD

theorem Strays.terminalPutc (h : Strays a s D) (c : Byte) :
    Strays a (terminalPutc a a s c)
      (straysPutc (s.mouse.pointer 1) (s.screenX a) (s.screenY a) c D) := by
  have hx := h.cursor.x
  have hy := h.cursor.y
  have hsame := terminalPutc_self h.cursor c
  have hmouse : (HieUnix.terminalPutc a a s c).mouse = s.mouse := hsame.mouse
  have hgrid := cursorPutc_inGrid hx hy c
  refine ⟨?_, visible_straysPutc hx hy c h.visible, ?_, ?_, ?_, ⟨?_, ?_⟩⟩
  · rw [hmouse]
    exact h.highlights.terminalPutc h.cursor c
  · rw [hmouse]
    exact h.kept
  · rw [hmouse]
    exact h.released
  · exact hsame.currVidMem.trans h.currVidMem
  · rw [hsame.screenX]
    show 0 ≤ update s.screenX a _ a ∧ update s.screenX a _ a < 80
    rw [update_self]
    exact hgrid.1
  · rw [hsame.screenY]
    show 0 ≤ update s.screenY a _ a ∧ update s.screenY a _ a < 25
    rw [update_self]
    exact hgrid.2

/-! ## Runs -/

/-- The screen after `mouse_init`: no cell is highlighted, and the pointer is at cell 0. -/
structure BootScreen (tty : Tty) : Prop where
  attributes : ∀ k, Visible k → attributeOf tty.scr.mem k = attribByte
  mouse : tty.scr.mouse = mouseInit
  currVidMem : tty.scr.currVidMem = pageBase tty.active
  cursor : tty.scr.CursorInGrid tty.active

/-- A byte of the mouse, or a character written to the active terminal by `putc` or by
`terminal_putc`. -/
inductive PointerOp
  | mouse (data : Byte)
  | kernelChar (c : Byte)
  | processChar (c : Byte)

/-- No packet has a button pressed. -/
def PointerOp.Enabled (tty : Tty) : PointerOp → Prop
  | .mouse data => tty.scr.mouse.AtFirst → pressed data = 0
  | .kernelChar _ => True
  | .processChar _ => True

/-- The effect of an event. -/
def PointerOp.run (tty : Tty) : PointerOp → Tty
  | .mouse data => doHandleMouse tty data
  | .kernelChar c => { tty with scr := putc tty.active tty.scr c }
  | .processChar c => { tty with scr := terminalPutc tty.active tty.active tty.scr c }

/-- The strays after an event, by where the pointer and the cursor are before it. -/
def PointerOp.strays (tty : Tty) (D : Set ℤ) : PointerOp → Set ℤ
  | .mouse _ => D
  | .kernelChar c | .processChar c =>
    straysPutc (tty.scr.mouse.pointer 1) (tty.scr.screenX tty.active) (tty.scr.screenY tty.active)
      c D

/-- The runs of the mouse and the active terminal. -/
def pointerLTS : LTS Tty PointerOp where
  init := BootScreen
  step tty op tty' := op.Enabled tty ∧ tty' = op.run tty

/-- The runs with a record of the strays. At the start it is the cell of the pointer, which is not
drawn. -/
def strayLTS : LTS (Tty × Set ℤ) PointerOp :=
  pointerLTS.history (fun _ => {0}) fun tty op _ D => op.strays tty D

theorem strays_bootScreen (h : BootScreen tty) : Strays tty.active tty.scr {0} := by
  have hpointer : ∀ i, tty.scr.mouse.pointer i = 0 := by
    intro i
    rw [h.mouse]
    rfl
  refine ⟨?_, ?_, ?_, ?_, h.currVidMem, h.cursor⟩
  · rw [hpointer, symmDiff_self]
    exact ⟨fun k _ hk => hk.elim, fun k hk _ => h.attributes k hk⟩
  · rintro k rfl
    exact ⟨Int.le_refl 0, by decide⟩
  · rw [hpointer, hpointer]
  · rw [h.mouse]
    exact ⟨fun _ => rfl, by decide⟩

/-- The record changes nothing. -/
theorem reach_of_strayLTS {p : Tty × Set ℤ} (h : strayLTS.Reach LTS.always p) :
    pointerLTS.Reach LTS.always p.1 := by
  have hrecord : (pointerLTS.history (fun _ => {0}) fun tty op _ D => op.strays tty D).Reach
      (fun q a => LTS.always q.1 a) p := h
  exact hrecord.of_history

theorem drawPointer_active (tty : Tty) : (drawPointer tty).active = tty.active := by
  rw [drawPointer]
  split_ifs
  · rfl
  · rfl
  · rfl
  · rw [endSelection]
    split_ifs <;> rfl

/-- The mouse does not switch terminals. -/
theorem doHandleMouse_active (tty : Tty) (data : Byte) :
    (doHandleMouse tty data).active = tty.active := by
  show (mousePacket tty data).active = tty.active
  rw [mousePacket]
  split_ifs
  · rfl
  · rfl
  · rfl
  · exact drawPointer_active _

/-- **One event** changes the strays as the record says. -/
theorem Strays.run (h : Strays tty.active tty.scr D) {op : PointerOp} (henabled : op.Enabled tty) :
    Strays (op.run tty).active (op.run tty).scr (op.strays tty D) := by
  cases op with
  | mouse data =>
    show Strays (HieUnix.doHandleMouse tty data).active _ _
    rw [doHandleMouse_active]
    exact h.doHandleMouse henabled
  | kernelChar c =>
    show Strays tty.active (putc tty.active tty.scr c) _
    rw [putc_eq_terminalPutc h.currVidMem]
    exact h.terminalPutc c
  | processChar c => exact h.terminalPutc c

/-- **The record is right in every run.** -/
theorem strays_of_reach {p : Tty × Set ℤ} (h : strayLTS.Reach LTS.always p) :
    Strays p.1.active p.1.scr p.2 := by
  refine h.invariant (I := fun p => Strays p.1.active p.1.scr p.2) ?_ ?_
  · rintro p ⟨hboot, hstart⟩
    rw [hstart]
    exact strays_bootScreen hboot
  · rintro p op p' hp - ⟨⟨henabled, hrun⟩, hrecord⟩
    rw [hrun, hrecord]
    exact hp.run henabled

/-! ## The first packets -/

theorem clearLoop_attribute (m : ℤ → Byte) (base : ℤ) {n i : ℕ} (hi : i < n) :
    clearLoop m base n (base + (2 * i + 1)) = attribByte := by
  induction n with
  | zero => omega
  | succ n ih =>
    by_cases hlast : i = n
    · have haddr : base + 2 * (n : ℤ) + 1 = base + (2 * i + 1) := by omega
      rw [clearLoop, haddr, update_self]
    · rw [clearLoop, update_of_ne (by omega), update_of_ne (by omega)]
      exact ih (by omega)

/-- The terminals after `mouse_init` with the screen cleared and the cursor in row `y`. -/
def clearedTty (y : ℤ) : Tty :=
  { bootTty (fun _ => 0) [] with scr := (clear 0 (bootScreen fun _ => 0)).setCursor 0 0 y }

theorem bootScreen_clearedTty {y : ℤ} (hy : 0 ≤ y ∧ y < 25) : BootScreen (clearedTty y) := by
  have hpage : video1 = pageBase 0 := by decide
  refine ⟨?_, rfl, hpage, ⟨?_, ?_⟩⟩
  · intro k hk
    obtain ⟨i, rfl⟩ := Int.eq_ofNat_of_zero_le hk.1
    have hi : (i : ℤ) < 2000 := hk.2
    have hmem : (clearedTty y).scr.mem
        = clearLoop (clearLoop (fun _ => 0) (pageBase 0) 2000) video 2000 := clear_mem hpage
    rw [hmem, attributeOf]
    exact clearLoop_attribute _ video (by omega)
  · exact (by decide : (0 : ℤ) ≤ 0 ∧ (0 : ℤ) < 80)
  · exact hy

/-- The terminals when the packet `08 00 00` has been read but for its last byte. -/
def readTty (y : ℤ) : Tty := [0xFA, 0x08, 0x00].foldl doHandleMouse (clearedTty y)

theorem reach_readTty {y : ℤ} (hy : 0 ≤ y ∧ y < 25) :
    strayLTS.Reach LTS.always (readTty y, {0}) := by
  have hboot : strayLTS.Reach LTS.always (clearedTty y, {0}) :=
    .init ⟨bootScreen_clearedTty hy, rfl⟩
  have hdropped : strayLTS.Reach LTS.always (doHandleMouse (clearedTty y) 0xFA, {0}) :=
    .step (a := .mouse 0xFA) hboot trivial ⟨⟨fun hfirst => absurd rfl hfirst.1, rfl⟩, rfl⟩
  have hfirst : strayLTS.Reach LTS.always
      (doHandleMouse (doHandleMouse (clearedTty y) 0xFA) 0x08, {0}) :=
    .step (a := .mouse 0x08) hdropped trivial ⟨⟨fun _ => by decide, rfl⟩, rfl⟩
  exact .step (a := .mouse 0x00) hfirst trivial ⟨⟨fun _ => by decide, rfl⟩, rfl⟩

/-! ## After a packet -/

/-- **The highlight of the pointer.** In every run of packets with no button pressed and characters
of the active terminal, in any order byte by byte, the pointer's cell is the only one highlighted
after a packet exactly when the record has no strays. -/
theorem onlyPointer_iff {p : Tty × Set ℤ} (h : strayLTS.Reach LTS.always p) (data : Byte)
    (hthird : p.1.scr.mouse.AtThird) : OnlyPointer (doHandleMouse p.1 data).scr ↔ p.2 = ∅ := by
  have hfirst : p.1.scr.mouse.AtFirst → pressed data = 0 := by
    rintro ⟨-, hcycle⟩
    rw [Mouse.AtThird, hcycle] at hthird
    exact absurd hthird (by decide)
  exact ((strays_of_reach h).doHandleMouse hfirst).onlyPointer_iff_empty

/-- The line feed between the bytes of the packet scrolls, and that repairs the pointer's cell. -/
theorem onlyPointer_iff_scrolled :
    OnlyPointer (doHandleMouse (PointerOp.run (readTty 24) (.kernelChar (chr '\n'))) 0x00).scr := by
  have hread := reach_readTty (by decide : (0 : ℤ) ≤ 24 ∧ (24 : ℤ) < 25)
  have hmouse : (PointerOp.run (readTty 24) (.kernelChar (chr '\n'))).scr.mouse
      = (readTty 24).scr.mouse := by
    have hstrays : Strays (readTty 24).active (readTty 24).scr {0} := strays_of_reach hread
    show (putc (readTty 24).active (readTty 24).scr (chr '\n')).mouse = _
    rw [putc_eq_terminalPutc hstrays.currVidMem]
    exact (terminalPutc_self hstrays.cursor _).mouse
  have hstep : strayLTS.Reach LTS.always
      (PointerOp.run (readTty 24) (.kernelChar (chr '\n')),
        PointerOp.strays (readTty 24) {0} (.kernelChar (chr '\n'))) :=
    .step (a := .kernelChar (chr '\n')) hread trivial ⟨⟨trivial, rfl⟩, rfl⟩
  refine (onlyPointer_iff hstep 0x00 ?_).mpr ?_
  · rw [hmouse]
    rfl
  · show scrollStrays 0 {0} = ∅
    rw [scrollStrays, sdiff_self]
    ext k
    simp [shiftUp]

/-- After the first packet, which moves nothing, no cell is highlighted. -/
theorem pointer_not_highlighted :
    ¬ ∀ tty, pointerLTS.Reach LTS.always tty → ∀ data, tty.scr.mouse.AtThird →
      OnlyPointer (doHandleMouse tty data).scr := by
  intro hall
  have hread := reach_readTty (by decide : (0 : ℤ) ≤ 0 ∧ (0 : ℤ) < 25)
  have hfirst : (readTty 0).scr.mouse.AtFirst → pressed 0x00 = 0 := fun _ => by decide
  have hstrays := (strays_of_reach hread).doHandleMouse hfirst
  have honly := hall (readTty 0) (reach_of_strayLTS hread) 0x00 rfl
  exact Set.singleton_ne_empty _ (hstrays.onlyPointer_iff_empty.mp honly)

end HieUnix
