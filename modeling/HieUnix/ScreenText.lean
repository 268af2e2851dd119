import HieUnix.ScreenOutput
import HieUnix.Lib.TextGrid

/-!
# What the screen shows

A string written to the active terminal after `clear` is laid out in rows of 80 characters, and the
screen shows the last 25 of them. `Shows` says that both copies of the screen show a text; a
character printed by `putc` or `terminal_putc` feeds the text (`shows_printed`), because
nothing stands after the cursor: what the backspaces of `scroll_up` leave in the bottom row is
blank already.
-/

namespace HieUnix

open Function

variable {a : Term} {s s' : Screen} {c : Byte}

/-- A copy of the screen, from `base` on, shows the text `t`. -/
def PageShows (m : ℤ → Byte) (base : ℤ) (t : TextGrid Byte) : Prop :=
  ∀ row < 25, ∀ col < 80, m (base + 2 * (80 * row + col : ℕ)) = t.cell 25 (chr ' ') row col

/-- Both copies of the screen of terminal `a` show the text `t`, with the cursor at its end. -/
structure Shows (s : Screen) (a : Term) (t : TextGrid Byte) : Prop where
  row_lt : t.row.length < 80
  screenX : s.screenX a = t.row.length
  screenY : s.screenY a = t.cursorRow 25
  page : PageShows s.mem (pageBase a) t
  visible : PageShows s.mem video t

/-! ## The empty screen -/

/-- The loop of `clear` blanks its cells. -/
theorem clearLoop_cell (m : ℤ → Byte) (base : ℤ) {n i : ℕ} (hi : i < n) :
    clearLoop m base n (base + 2 * i) = chr ' ' := by
  induction n with
  | zero => omega
  | succ n ih =>
    rw [clearLoop, update_of_ne (by omega)]
    by_cases h : i = n
    · rw [h, update_self]
    · rw [update_of_ne (by omega)]
      exact ih (by omega)

/-- The loop of `clear` writes no byte outside its cells. -/
theorem clearLoop_of_outside (m : ℤ → Byte) (base : ℤ) (n : ℕ) {b : ℤ}
    (hb : b < base ∨ base + 2 * n ≤ b) : clearLoop m base n b = m b := by
  induction n with
  | zero => rfl
  | succ n ih =>
    rw [clearLoop, update_of_ne (by omega), update_of_ne (by omega)]
    exact ih (by omega)

theorem pageShows_clearLoop (m : ℤ → Byte) (base : ℤ) :
    PageShows (clearLoop m base 2000) base .empty := by
  intro row hrow col hcol
  rw [clearLoop_cell _ _ (by omega), TextGrid.cell_eq_blank (by omega)]
  show 0 < row ∨ row = 0 ∧ 0 ≤ col
  omega

/-- `clear` fills both copies of the active terminal. -/
theorem clear_mem (hcurr : s.currVidMem = pageBase a) :
    (clear a s).mem = clearLoop (clearLoop s.mem (pageBase a) 2000) video 2000 := by
  rw [← hcurr]
  rfl

/-- After `clear` the screen shows no text. -/
theorem shows_clear (hcurr : s.currVidMem = pageBase a) : Shows (clear a s) a .empty := by
  have hpage := pageBase_eq a
  have hmem := clear_mem hcurr
  constructor
  · show 0 < 80
    omega
  · exact update_self a _ _
  · exact update_self a _ _
  · intro row hrow col hcol
    rw [hmem, clearLoop_of_outside _ _ _ (by omega)]
    exact pageShows_clearLoop _ _ row hrow col hcol
  · rw [hmem]
    exact pageShows_clearLoop _ _

/-! ## One character -/

variable {m : ℤ → Byte} {base : ℤ} {t : TextGrid Byte}

/-- Storing a character at the cursor adds it to the open row. -/
theorem PageShows.putCell (h : PageShows m base t) (hlt : t.row.length < 80) (c : Byte) :
    PageShows (putCell m base (80 * t.cursorRow 25 + t.row.length) c) base (t.put c) := by
  intro row hrow col hcol
  have hiff : (2 * (80 * row + col : ℕ) : ℤ) = 2 * (80 * t.cursorRow 25 + t.row.length) ↔
      row = t.cursorRow 25 ∧ col = t.row.length := by omega
  rw [putCell_apply, if_neg (by omega), TextGrid.cell_put (by omega) hrow, h row hrow col hcol]
  simp only [hiff]

/-- Scrolling, with the open row erased, closes the row: nothing stands after its end. -/
theorem PageShows.scrollPage (h : PageShows m base t) (hlast : 24 ≤ t.closed.length) {x : ℤ}
    (hx : t.row.length ≤ x) : PageShows (scrollPage m base x) base t.close := by
  intro row hrow col hcol
  have hcur : t.cursorRow 25 = 24 := Nat.min_eq_left hlast
  have hup : t.close.cell 25 (chr ' ') row col = t.cell 25 (chr ' ') (row + 1) col := by
    rw [TextGrid.cell_close, if_neg (by omega)]
  rw [scrollPage_apply, hup]
  by_cases hrow' : row < 24
  · -- the row below has moved here
    have hsrc : (2 * (80 * row + col : ℕ) + 160 : ℤ) = 2 * (80 * (row + 1) + col : ℕ) := by omega
    rw [if_neg (by omega), if_pos (by omega), hsrc]
    exact h (row + 1) (by omega) col hcol
  · have hbottom : row = 24 := by omega
    have hblank : t.cell 25 (chr ' ') (row + 1) col = chr ' ' := by
      rw [hbottom]
      exact TextGrid.cell_height t (by omega) col
    rw [hblank]
    by_cases hleft : (col : ℤ) < x
    · exact if_pos (by omega)
    · rw [if_neg (by omega), if_neg (by omega), h row hrow col hcol]
      apply TextGrid.cell_eq_blank (by omega)
      omega

/-- A row closed above the last one leaves the screen as it is. -/
theorem PageShows.close (h : PageShows m base t) (hlt : t.closed.length < 24) :
    PageShows m base t.close := by
  intro row hrow col hcol
  rw [TextGrid.cell_close, if_pos (by omega)]
  exact h row hrow col hcol

/-- **A copy of the screen after a character shows the text with the character.** -/
theorem PageShows.pagePutc (h : PageShows m base t) (hlt : t.row.length < 80) (c : Byte) :
    PageShows (pagePutc m base t.row.length (t.cursorRow 25) c) base (t.feed 80 isNewline c) := by
  have hcur : ((t.cursorRow 25 : ℕ) : ℤ) = 24 ↔ 24 ≤ t.closed.length := by
    rw [TextGrid.cursorRow]
    omega
  have hput := h.putCell hlt c
  have hlen : (t.put c).row.length = t.row.length + 1 := by
    rw [TextGrid.row_put, List.length_append, List.length_singleton]
  rw [HieUnix.pagePutc, TextGrid.feed, hlen]
  cases isNewline c with
  | true =>
    by_cases hlast : 24 ≤ t.closed.length
    · rw [if_pos rfl, if_pos rfl, if_pos (hcur.mpr hlast)]
      exact h.scrollPage hlast (Int.le_refl _)
    · rw [if_pos rfl, if_pos rfl, if_neg (mt hcur.mp hlast)]
      exact h.close (by omega)
  | false =>
    rw [if_neg Bool.false_ne_true, if_neg Bool.false_ne_true]
    by_cases hfull : t.row.length + 1 = 80
    · by_cases hlast : 24 ≤ t.closed.length
      · rw [if_pos hfull, if_pos ⟨by omega, hcur.mpr hlast⟩]
        exact hput.scrollPage hlast (by omega)
      · rw [if_pos hfull, if_neg (fun hboth => hlast (hcur.mp hboth.2))]
        exact hput.close (Nat.lt_of_not_le hlast)
    · rw [if_neg hfull, if_neg (by omega)]
      exact hput

/-- Where the cursor goes, the open row ends. -/
theorem cursorPutc_eq (t : TextGrid Byte) (c : Byte) :
    cursorPutc t.row.length (t.cursorRow 25) c
      = (((t.feed 80 isNewline c).row.length : ℤ),
          (((t.feed 80 isNewline c).cursorRow 25 : ℕ) : ℤ)) := by
  have hrow : (if ((t.cursorRow 25 : ℕ) : ℤ) = 24 then 24 else ((t.cursorRow 25 : ℕ) : ℤ) + 1)
      = ((min 24 (t.closed.length + 1) : ℕ) : ℤ) := by
    rw [TextGrid.cursorRow]
    split_ifs <;> omega
  have hlen : (t.put c).row.length = t.row.length + 1 := by
    rw [TextGrid.row_put, List.length_append, List.length_singleton]
  have hclose : ∀ t' : TextGrid Byte, t'.closed = t.closed →
      ((t'.close.cursorRow 25 : ℕ) : ℤ) = ((min 24 (t.closed.length + 1) : ℕ) : ℤ) := by
    intro t' ht
    rw [TextGrid.cursorRow_close, ht]
  rw [cursorPutc, TextGrid.feed, hlen, hrow]
  cases isNewline c with
  | true => rw [if_pos rfl, if_pos rfl, hclose t rfl, TextGrid.row_close, List.length_nil,
      Int.ofNat_zero]
  | false =>
    rw [if_neg Bool.false_ne_true, if_neg Bool.false_ne_true]
    by_cases hfull : t.row.length + 1 = 80
    · rw [if_pos hfull, if_pos (by omega), hclose (t.put c) rfl, TextGrid.row_close,
        List.length_nil, Int.ofNat_zero]
    · rw [if_neg hfull, if_neg (by omega), hlen, TextGrid.cursorRow_put, Int.natCast_add,
        Int.natCast_one]

/-- Both copies show the text with the character. -/
theorem Shows.printed (h : Shows s a t) (c : Byte) :
    Shows (s.printed a c) a (t.feed 80 isNewline c) := by
  have hpage := pageBase_eq a
  have hcursor := cursorPutc_eq t c
  rw [← h.screenX, ← h.screenY] at hcursor
  have hrow : ((t.cursorRow 25 : ℕ) : ℤ) < 25 := by
    rw [TextGrid.cursorRow]
    omega
  have hlt := h.row_lt
  have hx := h.screenX
  have hy := h.screenY
  have hfirst := h.page.pagePutc h.row_lt c
  rw [← hx, ← hy] at hfirst
  constructor
  · exact TextGrid.length_row_feed (by omega) h.row_lt c
  · show update s.screenX a _ a = _
    rw [update_self, hcursor]
  · show update s.screenY a _ a = _
    rw [update_self, hcursor]
  · -- the video memory is not part of the page
    intro row hrow col hcol
    show HieUnix.pagePutc _ video _ _ _ _ = _
    rw [pagePutc_of_outside (by omega) (by omega) _ _ (by omega)]
    exact hfirst row hrow col hcol
  · have hother : PageShows
        (HieUnix.pagePutc s.mem (pageBase a) (s.screenX a) (s.screenY a) c) video t := by
      intro row hrow col hcol
      rw [pagePutc_of_outside (by omega) (by omega) _ _ (by omega)]
      exact h.visible row hrow col hcol
    have hsecond := hother.pagePutc h.row_lt c
    rw [← hx, ← hy] at hsecond
    exact hsecond

/-- The highlight of the pointer is no part of the text. -/
theorem Shows.congr (h : Shows s a t) (hsame : s'.SameText s) : Shows s' a t := by
  constructor
  · exact h.row_lt
  · rw [hsame.screenX, h.screenX]
  · rw [hsame.screenY, h.screenY]
  · intro row hrow col hcol
    rw [hsame.mem _ (notAttribute_page a _)]
    exact h.page row hrow col hcol
  · intro row hrow col hcol
    rw [hsame.mem _ (notAttribute_video _)]
    exact h.visible row hrow col hcol

theorem Shows.cursorInGrid (h : Shows s a t) : s.CursorInGrid a := by
  have hlt := h.row_lt
  have hx := h.screenX
  have hy := h.screenY
  rw [TextGrid.cursorRow] at hy
  constructor <;> omega

/-! ## A string -/

/-- The two functions that print a character on the active terminal. -/
inductive Writer
  | putc
  | terminalPutc
deriving DecidableEq, Repr

/-- A character printed on the active terminal: by `putc`, or by `terminal_putc` of a process of
that terminal. -/
def writeChar (active : Term) (s : Screen) (w : Writer × Byte) : Screen :=
  match w.1 with
  | .putc => putc active s w.2
  | .terminalPutc => terminalPutc active active s w.2

theorem writeChar_eq (hcurr : s.currVidMem = pageBase a) (w : Writer × Byte) :
    writeChar a s w = terminalPutc a a s w.2 := by
  unfold writeChar
  cases w.1 with
  | putc => exact putc_eq_terminalPutc hcurr w.2
  | terminalPutc => rfl

/-- A string written to a screen that shows a text is added to the text. -/
theorem shows_foldl_writeChar (hcurr : s.currVidMem = pageBase a) (h : Shows s a t)
    (ws : List (Writer × Byte)) :
    Shows (ws.foldl (writeChar a) s) a
      ((ws.map Prod.snd).foldl (TextGrid.feed 80 isNewline) t) := by
  induction ws generalizing s t with
  | nil => exact h
  | cons w ws ih =>
    have hsame := terminalPutc_self h.cursorInGrid w.2
    rw [List.foldl_cons, List.map_cons, List.foldl_cons, writeChar_eq hcurr]
    apply ih
    · rw [hsame.currVidMem]
      exact hcurr
    · exact (h.printed w.2).congr hsame

/-- **The screen shows the last 25 rows of what has been written since `clear`**, and the cursor
is at the end of the open row. -/
theorem screen_shows_layout (hcurr : s.currVidMem = pageBase a) (ws : List (Writer × Byte)) :
    let s' := ws.foldl (writeChar a) (clear a s)
    let text := TextGrid.layout 80 isNewline (ws.map Prod.snd)
    (∀ row < 25, ∀ col < 80,
      s'.mem (pageBase a + 2 * (80 * row + col : ℕ)) = text.cell 25 (chr ' ') row col ∧
        s'.mem (video + 2 * (80 * row + col : ℕ)) = text.cell 25 (chr ' ') row col) ∧
      s'.screenX a = text.row.length ∧ s'.screenY a = (min 24 text.closed.length : ℕ) := by
  intro s' text
  have hcurr' : (clear a s).currVidMem = pageBase a := hcurr
  have hshows : Shows s' a text := shows_foldl_writeChar hcurr' (shows_clear hcurr) ws
  refine ⟨?_, hshows.screenX, hshows.screenY⟩
  intro row hrow col hcol
  exact ⟨hshows.page row hrow col hcol, hshows.visible row hrow col hcol⟩

/-- A row that is full, one of a letter, and enough newlines to scroll the first one away. -/
def sampleText : List (Writer × Byte) :=
  List.replicate 80 (.putc, chr 'a') ++ [(.terminalPutc, chr 'b')] ++
    List.replicate 24 (.putc, chr '\n') ++ [(.terminalPutc, chr 'z')]

theorem screen_shows_layout_boot :
    let s' := sampleText.foldl (writeChar 0) (clear 0 (bootScreen fun _ => 0))
    s'.mem (video + 2 * (80 * 0 + 0 : ℕ)) = chr 'b' ∧
      s'.mem (pageBase 0 + 2 * (80 * 24 + 0 : ℕ)) = chr 'z' ∧
      s'.mem (video + 2 * (80 * 24 + 1 : ℕ)) = chr ' ' ∧ s'.screenX 0 = 1 ∧ s'.screenY 0 = 24 := by
  have htop : (TextGrid.layout 80 isNewline (sampleText.map Prod.snd)).cell 25 (chr ' ') 0 0
      = chr 'b' := by decide +kernel
  have hlast : (TextGrid.layout 80 isNewline (sampleText.map Prod.snd)).cell 25 (chr ' ') 24 0
      = chr 'z' := by decide +kernel
  have hblank : (TextGrid.layout 80 isNewline (sampleText.map Prod.snd)).cell 25 (chr ' ') 24 1
      = chr ' ' := by decide +kernel
  have hrow : (TextGrid.layout 80 isNewline (sampleText.map Prod.snd)).row.length = 1 := by
    decide +kernel
  have hclosed : (TextGrid.layout 80 isNewline (sampleText.map Prod.snd)).closed.length = 25 := by
    decide +kernel
  obtain ⟨hcells, hx, hy⟩ := screen_shows_layout (s := bootScreen fun _ => 0) (a := 0) rfl
    sampleText
  rw [hrow] at hx
  rw [hclosed] at hy
  exact ⟨(hcells 0 (by omega) 0 (by omega)).2.trans htop,
    (hcells 24 (by omega) 0 (by omega)).1.trans hlast,
    (hcells 24 (by omega) 1 (by omega)).2.trans hblank, hx, hy⟩

end HieUnix
