import HieUnix.Keyboard
import HieUnix.Ownership
import HieUnix.ScreenText

/-!
# The visible screen and the active terminal

In every run of the terminals the characters seen are those of the active terminal's backup page
(`mirrored_of_reach`). The invariant `Mirrors` also keeps every cursor inside the grid, and for
each terminal at least as many cells before the cursor as there are characters in the line being
typed: a backspace then never leaves the screen, and the stray cell that a background scroll
erases is no character of another page.
-/

namespace HieUnix

open Function

variable {a t u : Term} {s s' : Screen} {c : Byte} {pos pos' : Term → ℕ}

/-- Terminal `a` is the one that is seen, and `pos t` characters can be taken back on terminal
`t`. -/
structure Mirrors (s : Screen) (a : Term) (pos : Term → ℕ) : Prop where
  currVidMem : s.currVidMem = pageBase a
  chars : ∀ i : ℕ, i < 2000 → s.mem (video + 2 * i) = s.mem (pageBase a + 2 * i)
  cursor : ∀ t, s.CursorInGrid t
  room : ∀ t, (pos t : ℤ) ≤ 80 * s.screenY t + s.screenX t
  pos_le : ∀ t, pos t ≤ 128

/-- The highlight of the pointer is no character. -/
theorem Mirrors.congr (h : Mirrors s a pos) (hsame : s'.SameText s) : Mirrors s' a pos := by
  constructor
  · rw [hsame.currVidMem]
    exact h.currVidMem
  · intro i hi
    rw [hsame.mem _ (notAttribute_video i), hsame.mem _ (notAttribute_page a i)]
    exact h.chars i hi
  · intro t
    exact (h.cursor t).congr (congrFun hsame.screenX t) (congrFun hsame.screenY t)
  · intro t
    rw [hsame.screenX, hsame.screenY]
    exact h.room t
  · exact h.pos_le

/-- Fewer characters can be taken back. -/
theorem Mirrors.mono (h : Mirrors s a pos) (hle : ∀ t, pos' t ≤ pos t) : Mirrors s a pos' := by
  refine ⟨h.currVidMem, h.chars, h.cursor, ?_, ?_⟩
  · intro t
    have hroom := h.room t
    have hlt := hle t
    omega
  · intro t
    exact Nat.le_trans (hle t) (h.pos_le t)

/-- When the cursor of one terminal moves, the others keep their room. -/
theorem cursors_of_moved {x y : ℤ} (hX : s'.screenX = update s.screenX t x)
    (hY : s'.screenY = update s.screenY t y) (hx : 0 ≤ x ∧ x < 80) (hy : 0 ≤ y ∧ y < 25)
    (hroom : (pos' t : ℤ) ≤ 80 * y + x) (hle : pos' t ≤ 128)
    (hother : ∀ u, u ≠ t → s.CursorInGrid u ∧
      (pos' u : ℤ) ≤ 80 * s.screenY u + s.screenX u ∧ pos' u ≤ 128) (u : Term) :
    s'.CursorInGrid u ∧ (pos' u : ℤ) ≤ 80 * s'.screenY u + s'.screenX u ∧ pos' u ≤ 128 := by
  by_cases hu : u = t
  · subst hu
    refine ⟨⟨?_, ?_⟩, ?_, hle⟩
    · rw [hX, update_self]
      exact hx
    · rw [hY, update_self]
      exact hy
    · rw [hX, hY, update_self, update_self]
      exact hroom
  · obtain ⟨hcursor, hroom', hle'⟩ := hother u hu
    have hXu : s'.screenX u = s.screenX u := by rw [hX, update_of_ne hu]
    have hYu : s'.screenY u = s.screenY u := by rw [hY, update_of_ne hu]
    refine ⟨hcursor.congr hXu hYu, ?_, hle'⟩
    rw [hXu, hYu]
    exact hroom'

/-! ## A character -/

/-- The cursor moves on, or to the start of the last row. -/
theorem cursorPutc_room {x y : ℤ} (hx : 0 ≤ x ∧ x < 80) (hy : 0 ≤ y ∧ y < 25) {p q : ℕ}
    (hp : (p : ℤ) ≤ 80 * y + x) (hq : q ≤ p ∨ isNewline c = false ∧ q ≤ p + 1) (hle : q ≤ 128) :
    (q : ℤ) ≤ 80 * (cursorPutc x y c).2 + (cursorPutc x y c).1 := by
  rw [cursorPutc]
  cases hc : isNewline c with
  | true =>
    have hqp : q ≤ p := hq.resolve_right (fun h => by rw [hc] at h; cases h.1)
    rw [if_pos rfl]
    split_ifs <;> dsimp only <;> omega
  | false =>
    rw [if_neg Bool.false_ne_true]
    split_ifs <;> dsimp only <;> omega

/-- A character of the active terminal goes to both copies. -/
theorem printed_chars (h : Mirrors s a pos) (c : Byte) {i : ℕ} (hi : i < 2000) :
    (s.printed a c).mem (video + 2 * i) = (s.printed a c).mem (pageBase a + 2 * i) := by
  have hpage := pageBase_eq a
  have hx := (h.cursor a).x
  have hy := (h.cursor a).y
  let ok : ℤ → Prop := fun j => 0 ≤ j ∧ j < 4000 ∧ j % 2 = 0
  have hok : ∀ j, ok j → j < 3840 → ok (j + 160) := by
    intro j hj hlt
    obtain ⟨h0, h1, h2⟩ := hj
    exact ⟨by omega, by omega, by omega⟩
  have hcopy : ∀ j, ok j →
      pagePutc s.mem (pageBase a) (s.screenX a) (s.screenY a) c (video + j)
        = s.mem (pageBase a + j) := by
    intro j hj
    obtain ⟨h0, h1, h2⟩ := hj
    rw [pagePutc_of_outside hx hy _ _ (by omega)]
    have hchar := h.chars (j / 2).toNat (by omega)
    have hhalf : 2 * ((j / 2).toNat : ℤ) = j := by omega
    rw [hhalf] at hchar
    exact hchar
  have hj : ok (2 * i) := ⟨by omega, by omega, by omega⟩
  have hsame := pagePutc_congr hok hcopy (s.screenX a) (s.screenY a) c hj
  show pagePutc _ video _ _ _ _ = pagePutc _ video _ _ _ _
  rw [hsame]
  apply (pagePutc_of_outside hx hy _ _ _).symm
  omega

/-- **A character of any terminal keeps the copies equal.** -/
theorem Mirrors.terminalPutc (h : Mirrors s a pos) (t : Term) (c : Byte)
    (hother : ∀ u, u ≠ t → pos' u = pos u)
    (hpos : pos' t ≤ pos t ∨ isNewline c = false ∧ pos' t ≤ pos t + 1) (hle : pos' t ≤ 128) :
    Mirrors (terminalPutc a t s c) a pos' := by
  have hg := h.cursor t
  -- the cursor moves the same way for the active terminal and for another one
  have hX : (HieUnix.terminalPutc a t s c).screenX
      = update s.screenX t (cursorPutc (s.screenX t) (s.screenY t) c).1 := by
    by_cases hta : t = a
    · subst hta
      exact (terminalPutc_self hg c).screenX
    · rw [terminalPutc_of_ne hta hg]
  have hY : (HieUnix.terminalPutc a t s c).screenY
      = update s.screenY t (cursorPutc (s.screenX t) (s.screenY t) c).2 := by
    by_cases hta : t = a
    · subst hta
      exact (terminalPutc_self hg c).screenY
    · rw [terminalPutc_of_ne hta hg]
  have hgrid := cursorPutc_inGrid hg.x hg.y c
  have hroom := cursorPutc_room hg.x hg.y (h.room t) hpos hle
  -- the other cursors have not moved
  have hcursors : ∀ u, (HieUnix.terminalPutc a t s c).CursorInGrid u ∧
      (pos' u : ℤ) ≤ 80 * (HieUnix.terminalPutc a t s c).screenY u
        + (HieUnix.terminalPutc a t s c).screenX u ∧ pos' u ≤ 128 := by
    apply cursors_of_moved hX hY hgrid.1 hgrid.2 hroom hle
    intro u hu
    rw [hother u hu]
    exact ⟨h.cursor u, h.room u, h.pos_le u⟩
  refine ⟨?_, ?_, fun u => (hcursors u).1, fun u => (hcursors u).2.1, fun u => (hcursors u).2.2⟩
  · by_cases hta : t = a
    · subst hta
      rw [(terminalPutc_self hg c).currVidMem]
      exact h.currVidMem
    · rw [terminalPutc_of_ne hta hg]
      exact h.currVidMem
  · intro i hi
    have hpage := pageBase_eq a
    by_cases hta : t = a
    · subst hta
      have hsame := terminalPutc_self hg c
      rw [hsame.mem _ (notAttribute_video i), hsame.mem _ (notAttribute_page t i)]
      exact printed_chars h c hi
    · -- the video memory and the page of `a` are both out of reach
      have ht := pageBase_eq t
      have hx := (h.cursor a).x
      have hy := (h.cursor a).y
      have hne : t.val ≠ a.val := Fin.val_ne_of_ne hta
      have hstray : s.strayCell a = 80 * s.screenY a + s.screenX a - 1 := rfl
      rw [terminalPutc_of_ne hta hg]
      dsimp only
      rw [strayPutc_of_outside hg.x hg.y _ _ (by omega) (by omega),
        strayPutc_of_outside hg.x hg.y _ _ (by omega) (by omega)]
      exact h.chars i hi

/-! ## Backspace, `clear` and a switch -/

/-- `put_backspace` of the active terminal takes back the cell before the cursor. -/
theorem putBackspace_self (hx : 0 ≤ s.screenX a) :
    putBackspace a a s
      = { s with
          mem := update (update s.mem (pageBase a + 2 * s.strayCell a) (chr ' '))
            (video + 2 * s.strayCell a) (chr ' ')
          screenX := update s.screenX a (if s.screenX a = 0 then 79 else s.screenX a - 1)
          screenY := update s.screenY a (if s.screenX a = 0 then s.screenY a - 1 else s.screenY a) }
    := by
  by_cases hzero : s.screenX a = 0
  · have hle : s.screenX a ≤ 0 := by omega
    have hoff : 80 * (s.screenY a - 1) + (s.screenX a + 80 - 1)
        = 80 * s.screenY a + s.screenX a - 1 := by omega
    have hback : s.screenX a + 80 - 1 = 79 := by omega
    simp only [putBackspace, hle, if_true, Screen.setCursor, Screen.store, update_self,
      update_idem, Nat.cast_ofNat, hoff, Screen.strayCell]
    rw [if_pos hzero, if_pos hzero, hback]
  · have hle : ¬ s.screenX a ≤ 0 := by omega
    have hoff : 80 * s.screenY a + (s.screenX a - 1) = 80 * s.screenY a + s.screenX a - 1 := by
      omega
    simp only [putBackspace, hle, if_false, if_true, Screen.setCursor, Screen.store,
      Nat.cast_ofNat, hoff, Screen.strayCell, update_eq_self]
    rw [if_neg hzero, if_neg hzero, update_eq_self]

theorem Mirrors.putBackspace (h : Mirrors s a pos) (hpos : pos a ≠ 0) :
    Mirrors (putBackspace a a s) a (update pos a (pos a - 1)) := by
  have hx := (h.cursor a).x
  have hy := (h.cursor a).y
  have hroom := h.room a
  have hpage := pageBase_eq a
  have hstray : s.strayCell a = 80 * s.screenY a + s.screenX a - 1 := rfl
  have hself := putBackspace_self (s := s) hx.1
  have hcursors : ∀ u, (HieUnix.putBackspace a a s).CursorInGrid u ∧
      (update pos a (pos a - 1) u : ℤ) ≤ 80 * (HieUnix.putBackspace a a s).screenY u
        + (HieUnix.putBackspace a a s).screenX u ∧ update pos a (pos a - 1) u ≤ 128 := by
    have hle := h.pos_le a
    rw [hself]
    apply cursors_of_moved (t := a) rfl rfl
    · split_ifs <;> omega
    · split_ifs <;> omega
    · rw [update_self]
      split_ifs <;> omega
    · rw [update_self]
      omega
    · intro u hu
      rw [update_of_ne hu]
      exact ⟨h.cursor u, h.room u, h.pos_le u⟩
  refine ⟨?_, ?_, fun u => (hcursors u).1, fun u => (hcursors u).2.1, fun u => (hcursors u).2.2⟩
  · rw [hself]
    exact h.currVidMem
  · intro i hi
    rw [hself]
    dsimp only
    by_cases hk : (i : ℤ) = s.strayCell a
    · have hne : pageBase a + 2 * (i : ℤ) ≠ video + 2 * s.strayCell a := by omega
      rw [← hk, update_self, update_of_ne (by omega), update_self]
    · rw [update_of_ne (by omega), update_of_ne (by omega), update_of_ne (by omega),
        update_of_ne (by omega)]
      exact h.chars i hi

/-- `clear` blanks both copies. -/
theorem mirrors_clear (hcurr : s.currVidMem = pageBase a) (hpos : pos a = 0)
    (hother : ∀ t, t ≠ a → s.CursorInGrid t ∧ (pos t : ℤ) ≤ 80 * s.screenY t + s.screenX t)
    (hle : ∀ t, pos t ≤ 128) : Mirrors (clear a s) a pos := by
  have hpage := pageBase_eq a
  have hmem := clear_mem hcurr
  have hcursors : ∀ u, (clear a s).CursorInGrid u ∧
      (pos u : ℤ) ≤ 80 * (clear a s).screenY u + (clear a s).screenX u ∧ pos u ≤ 128 := by
    apply cursors_of_moved (s := s) (t := a) (x := 0) (y := 0) rfl rfl
    · omega
    · omega
    · omega
    · exact hle a
    · intro u hu
      exact ⟨(hother u hu).1, (hother u hu).2, hle u⟩
  refine ⟨hcurr, ?_, fun u => (hcursors u).1, fun u => (hcursors u).2.1,
    fun u => (hcursors u).2.2⟩
  intro i hi
  rw [hmem, clearLoop_cell _ _ hi, clearLoop_of_outside _ _ _ (by omega), clearLoop_cell _ _ hi]

/-- A switch copies the page of the new terminal to the video memory, and nothing else. -/
theorem showTerminal_mem_of_outside {b : ℤ} (u : Term) (hb : b < video ∨ video + 4000 ≤ b) :
    (showTerminal s u).mem b = s.mem b := if_neg (by omega)

theorem showTerminal_chars (s : Screen) (u : Term) {i : ℕ} (hi : i < 2000) :
    (showTerminal s u).mem (video + 2 * i) = (showTerminal s u).mem (pageBase u + 2 * i) := by
  have hpage := pageBase_eq u
  have hpageByte : (showTerminal s u).mem (pageBase u + 2 * i) = s.mem (pageBase u + 2 * i) :=
    showTerminal_mem_of_outside u (.inr (by omega))
  have hcopied : (showTerminal s u).mem (video + 2 * i)
      = s.mem (pageBase u + (video + 2 * i - video)) := if_pos (by omega)
  rw [hpageByte, hcopied]
  congr 1
  omega

theorem Mirrors.showTerminal (h : Mirrors s a pos) (u : Term) :
    Mirrors (showTerminal s u) u pos := by
  constructor
  · rfl
  · exact fun i hi => showTerminal_chars s u hi
  · intro t
    exact ⟨(h.cursor t).x, (h.cursor t).y⟩
  · exact h.room
  · exact h.pos_le

/-! ## Runs -/

/-- The invariant of the runs of the terminals. -/
def Mirrored (tty : Tty) : Prop := Mirrors tty.scr tty.active tty.con.currBuffPos

variable {m : Machine} {k : Kernel} {fr : Frame} {tty tty' : Tty} {newNum : Term}

theorem Mirrored.congr (h : Mirrored tty) (hcon : tty'.con = tty.con)
    (hscr : tty'.scr.SameText tty.scr) : Mirrored tty' := by
  show Mirrors tty'.scr tty'.con.currentActiveTerminal tty'.con.currBuffPos
  rw [hcon]
  exact Mirrors.congr h hscr

theorem sameText_beforeKey (tty : Tty) : (beforeKey tty).scr.SameText tty.scr :=
  sameText_select (tty.scr.mouse.selected_lt 0) (tty.scr.mouse.selected_lt 1) 0 tty.scr

theorem Mirrored.backspaceKey (h : Mirrored tty) : Mirrored (backspaceKey tty) := by
  by_cases hpos : tty.con.currBuffPos tty.active = 0
  · rw [backspaceKey_of_eq_zero hpos]
    show Mirrors tty.scr (tty.con.eraseInput tty.active).currentActiveTerminal
      (tty.con.eraseInput tty.active).currBuffPos
    rw [eraseInput_active, eraseInput_currBuffPos]
    exact h
  · rw [backspaceKey_of_ne_zero hpos]
    exact h.putBackspace hpos

theorem Mirrored.enterKey (h : Mirrored tty) (key : Byte) : Mirrored (enterKey tty key) := by
  show Mirrors (putc tty.active tty.scr key) tty.active (update tty.con.currBuffPos tty.active 0)
  rw [putc_eq_terminalPutc h.currVidMem]
  apply Mirrors.terminalPutc h
  · intro u hu
    exact update_of_ne hu _ _
  · rw [update_self]
    omega
  · rw [update_self]
    omega

theorem Mirrored.clearKey (h : Mirrored tty) : Mirrored (clearKey tty) := by
  apply mirrors_clear h.currVidMem
  · exact update_self _ _ _
  · intro t ht
    refine ⟨h.cursor t, ?_⟩
    show ((update tty.con.currBuffPos tty.active 0 t : ℕ) : ℤ) ≤ _
    rw [update_of_ne ht]
    exact h.room t
  · intro t
    show update tty.con.currBuffPos tty.active 0 t ≤ 128
    have hle := h.pos_le t
    rw [update_apply]
    split_ifs <;> omega

theorem Mirrored.characterKey (h : Mirrored tty) {key : Byte} (hline : isNewline key = false)
    (hlt : tty.con.currBuffPos tty.active < 128) : Mirrored (characterKey tty key) := by
  show Mirrors (putc tty.active tty.scr key) tty.active
    (update tty.con.currBuffPos tty.active (tty.con.currBuffPos tty.active + 1))
  rw [putc_eq_terminalPutc h.currVidMem]
  apply Mirrors.terminalPutc h
  · intro u hu
    exact update_of_ne hu _ _
  · rw [update_self]
    exact .inr ⟨hline, Nat.le_refl _⟩
  · rw [update_self]
    omega

theorem Mirrored.typeKey (h : Mirrored tty) (c key : Byte) : Mirrored (typeKey tty c key) := by
  rcases typeKey_cases tty c key with hnone | ⟨-, hback⟩ | ⟨-, henter⟩ | hclear |
    ⟨hlt, hline, -, hchar⟩
  · rw [hnone]
    exact h
  · rw [hback]
    exact h.backspaceKey
  · rw [henter]
    exact h.enterKey key
  · rw [hclear]
    exact h.clearKey
  · rw [hchar]
    exact h.characterKey hline hlt

theorem Mirrored.changeScreen (h : Mirrored tty) (k : Kernel) (newNum : Term) :
    Mirrored (changeScreen k tty newNum) := by
  rw [HieUnix.changeScreen]
  split_ifs
  · exact Mirrors.showTerminal h newNum
  · exact h

theorem Mirrored.doHandleKeyboard (h : Mirrored tty) (m : Machine) (k : Kernel) (fr : Frame)
    (c : Byte) : Mirrored (doHandleKeyboard m k fr tty c).2.2 := by
  have hbefore : Mirrored (beforeKey tty) := h.congr rfl (sameText_beforeKey tty)
  have hmade : Mirrored (madeKey tty c) := hbefore.congr rfl (.refl _)
  have hack : Mirrored (acknowledge (madeKey tty c) kbIrqLine) := hmade.congr rfl (.refl _)
  rcases doHandleKeyboard_cases m k fr tty c with ⟨-, hbreak⟩ | ⟨-, -, htype⟩ |
    ⟨-, newNum, -, hswitch | hswitch⟩
  · rw [hbreak]
    exact hbefore.congr rfl (.refl _)
  · rw [htype]
    exact (hmade.typeKey c _).congr rfl (.refl _)
  · rw [hswitch]
    exact hack.changeScreen k newNum
  · rw [hswitch]
    exact (hack.changeScreen k newNum).congr rfl (sameText_resetCursor _)

/-- A read takes lines, not characters of the screen. -/
theorem terminalRead_currBuffPos_le (con : Console) (t : Term) (mem : Memory) (buf nbytes : Word)
    (u : Term) : (terminalRead con t mem buf nbytes).2.1.currBuffPos u ≤ con.currBuffPos u := by
  rw [terminalRead]
  split_ifs
  · exact Nat.le_refl _
  · by_cases hu : u = con.currentActiveTerminal
    · rw [hu]
      show update con.currBuffPos con.currentActiveTerminal 0 con.currentActiveTerminal ≤ _
      rw [update_self]
      exact Nat.zero_le _
    · exact Nat.le_of_eq (update_of_ne hu _ _)
  · exact Nat.le_refl _

theorem terminalRead_active (con : Console) (t : Term) (mem : Memory) (buf nbytes : Word) :
    (terminalRead con t mem buf nbytes).2.1.currentActiveTerminal = con.currentActiveTerminal := by
  rw [terminalRead]
  split_ifs <;> rfl

theorem Mirrored.run (h : Mirrored tty) (m : Machine) (op : TtyOp) : Mirrored (op.run m tty) := by
  cases op with
  | key k fr c => exact h.doHandleKeyboard m k fr c
  | afterSwitch => exact h.congr rfl (sameText_resetCursor tty.scr)
  | putc t c =>
    exact Mirrors.terminalPutc h t c (fun _ _ => rfl) (.inl (Nat.le_refl _)) (h.pos_le t)
  | read t mem buf nbytes =>
    show Mirrors tty.scr (terminalRead tty.con t mem buf nbytes).2.1.currentActiveTerminal
      (terminalRead tty.con t mem buf nbytes).2.1.currBuffPos
    rw [terminalRead_active]
    exact Mirrors.mono h (terminalRead_currBuffPos_le tty.con t mem buf nbytes)
  | click newPos => exact h

theorem mirrored_boot (mem : ℤ → Byte) (banner : List Byte) : Mirrored (bootTty mem banner) := by
  have hclear : Mirrors (clear 0 (bootScreen mem)) 0 fun _ => 0 := by
    apply mirrors_clear rfl rfl
    · intro t _
      constructor
      · constructor
        · exact ⟨Int.le_refl 0, by show (0 : ℤ) < 80; omega⟩
        · exact ⟨Int.le_refl 0, by show (0 : ℤ) < 25; omega⟩
      · exact Int.le_refl 0
    · intro t
      exact Nat.zero_le 128
  show Mirrors (banner.foldl (putc 0) (clear 0 (bootScreen mem))) 0 fun _ => 0
  generalize clear 0 (bootScreen mem) = s at hclear
  induction banner generalizing s with
  | nil => exact hclear
  | cons ch banner ih =>
    apply ih
    rw [putc_eq_terminalPutc hclear.currVidMem]
    exact hclear.terminalPutc 0 ch (fun _ _ => rfl) (.inl (Nat.le_refl _)) (Nat.zero_le _)

theorem mirrored_of_reach_always (h : (ttyLTS m).Reach LTS.always tty) : Mirrored tty := by
  apply LTS.Reach.invariant _ _ h
  · intro tty ⟨mem, banner, hboot⟩
    rw [hboot]
    exact mirrored_boot mem banner
  · intro tty op tty' htty _ ⟨_, hrun⟩
    rw [hrun]
    exact htty.run m op

/-! ## Switching -/

/-- A switch changes no backup page. -/
theorem switch_page (m : Machine) (k : Kernel) (fr : Frame) (halt : tty.mods.altFlag = true)
    (hfn : fnTerminal c = some newNum) (t : Term) {off : ℤ} (hoff : 0 ≤ off ∧ off < 4096) :
    (doHandleKeyboard m k fr tty c).2.2.scr.mem (pageBase t + off)
      = tty.scr.mem (pageBase t + off) := by
  have hpage := pageBase_eq t
  have hplace : NotAttribute (pageBase t + off) := .inr (.inl (by omega))
  have hchange : (changeScreen k (acknowledge (madeKey tty c) kbIrqLine) newNum).scr.mem
      (pageBase t + off) = tty.scr.mem (pageBase t + off) := by
    have hbefore := (sameText_beforeKey tty).mem _ hplace
    rw [changeScreen]
    split_ifs
    · show (showTerminal (beforeKey tty).scr newNum).mem _ = _
      rw [showTerminal_mem_of_outside newNum (.inr (by omega))]
      exact hbefore
    · exact hbefore
  rcases doHandleKeyboard_of_switch m k fr halt hfn with h | h
  · rw [h]
    exact hchange
  · rw [h, ← hchange]
    exact (sameText_resetCursor _).mem _ hplace

/-- The Alt flag outlasts a switch. -/
theorem switch_altFlag (m : Machine) (k : Kernel) (fr : Frame) (halt : tty.mods.altFlag = true)
    (hfn : fnTerminal c = some newNum) :
    (doHandleKeyboard m k fr tty c).2.2.mods.altFlag = true := by
  have hchange :
      (changeScreen k (acknowledge (madeKey tty c) kbIrqLine) newNum).mods.altFlag = true := by
    have hmade : (makeKey tty.mods c).altFlag = true := by
      rw [makeKey_of_fnTerminal hfn]
      exact halt
    rw [changeScreen]
    split_ifs <;> exact hmade
  rcases doHandleKeyboard_of_switch m k fr halt hfn with h | h <;>
    · rw [h]
      exact hchange

/-- **The screen mirrors the active terminal.** In every run `curr_vid_mem` is the backup page of
the active terminal and its characters are those that are seen. A switch changes no backup page,
so that switching away and back shows the same text. -/
theorem mirrored_of_reach (h : (ttyLTS m).Reach LTS.always tty) :
    tty.scr.currVidMem = pageBase tty.active ∧
      (∀ i : ℕ, i < 2000 →
        tty.scr.mem (video + 2 * i) = tty.scr.mem (pageBase tty.active + 2 * i)) ∧
      ∀ k fr c newNum, k.currentActiveTerminal = tty.active → tty.mods.altFlag = true →
        fnTerminal c = some newNum →
        let away := (doHandleKeyboard m k fr tty c).2.2
        (∀ t (off : ℕ), off < 4096 →
          away.scr.mem (pageBase t + off) = tty.scr.mem (pageBase t + off)) ∧
        ∀ k' fr' c' newNum', k'.currentActiveTerminal = away.active → fnTerminal c' = some newNum' →
          let back := (doHandleKeyboard m k' fr' away c').2.2
          back.active = tty.active → ∀ i : ℕ, i < 2000 →
            back.scr.mem (video + 2 * i) = tty.scr.mem (video + 2 * i) := by
  have hmirror := mirrored_of_reach_always h
  refine ⟨hmirror.currVidMem, hmirror.chars, ?_⟩
  intro k fr c newNum _ halt hfn away
  have hpages : ∀ t (off : ℕ), off < 4096 →
      away.scr.mem (pageBase t + off) = tty.scr.mem (pageBase t + off) := by
    intro t off hoff
    exact switch_page m k fr halt hfn t (by omega)
  refine ⟨hpages, ?_⟩
  intro k' fr' c' newNum' _ hfn' back hactive i hi
  have haway : Mirrored away := hmirror.doHandleKeyboard m k fr c
  have hback : Mirrored back := haway.doHandleKeyboard m k' fr' c'
  have halt' : away.mods.altFlag = true := switch_altFlag m k fr halt hfn
  have hcast : ((2 * i : ℕ) : ℤ) = 2 * i := by omega
  have hpage := hpages tty.active (2 * i) (by omega)
  have hsame : back.scr.mem (pageBase tty.active + 2 * i)
      = away.scr.mem (pageBase tty.active + 2 * i) :=
    switch_page m k' fr' halt' hfn' tty.active (by omega)
  rw [hcast] at hpage
  have hseen := hback.chars i hi
  rw [hactive] at hseen
  rw [hseen, hsame, hpage]
  exact (hmirror.chars i hi).symm

/-- The letter A is typed, a program prints on terminal 1, Alt-F2 starts a shell there, and B is
typed. -/
def sampleTtyOps : List TtyOp :=
  [.key sampleBoot (Frame.top 0) 30, .putc 1 (chr 'x'), .key sampleBoot (Frame.top 0) 0x38,
    .key sampleBoot (Frame.top 0) 60, .afterSwitch, .key sampleSwitched (Frame.top 1) 48]

def sampleShownTyped : Tty := sampleTtyOps.foldl (TtyOp.run sampleMachine) (bootTty (fun _ => 0) [])

/-- Each event can happen after those before it. -/
def TtyOp.AllEnabled (m : Machine) (tty : Tty) : List TtyOp → Prop
  | [] => True
  | op :: ops => op.Enabled tty ∧ AllEnabled m (op.run m tty) ops

theorem reach_foldl_tty {m : Machine} {ops : List TtyOp} {tty : Tty}
    (h : (ttyLTS m).Reach LTS.always tty) (hops : TtyOp.AllEnabled m tty ops) :
    (ttyLTS m).Reach LTS.always (ops.foldl (TtyOp.run m) tty) := by
  induction ops generalizing tty with
  | nil => exact h
  | cons op ops ih => exact ih (.step h trivial ⟨hops.1, rfl⟩) hops.2

theorem sampleShownTyped_reach : (ttyLTS sampleMachine).Reach LTS.always sampleShownTyped := by
  have hboot : sampleBoot.currentActiveTerminal = 0 := by decide
  have hswitched : sampleSwitched.currentActiveTerminal = 1 := by decide
  exact reach_foldl_tty (.init ⟨fun _ => 0, [], rfl⟩)
    ⟨hboot, trivial, hboot, hboot, trivial, hswitched, trivial⟩

/-- Terminal 1 is shown, and Alt-F1 leaves the page of terminal 0 as it was. -/
theorem mirrored_of_reach_sample : sampleShownTyped.active = 1 ∧
    (∀ i : ℕ, i < 2000 → sampleShownTyped.scr.mem (video + 2 * i)
      = sampleShownTyped.scr.mem (pageBase 1 + 2 * i)) ∧
    sampleShownTyped.scr.mem video = chr 'x' ∧ sampleShownTyped.scr.mem (video + 2) = chr 'b' ∧
    (doHandleKeyboard sampleMachine sampleSwitched (Frame.top 1) sampleShownTyped 59).2.2.scr.mem
      (pageBase 0) = chr 'a' := by
  have hactive : sampleShownTyped.active = 1 := by decide +kernel
  have hpage : sampleShownTyped.scr.mem (pageBase 0) = chr 'a' := by decide +kernel
  obtain ⟨-, hchars, hswitch⟩ := mirrored_of_reach sampleShownTyped_reach
  obtain ⟨hshown, -⟩ := hswitch sampleSwitched (Frame.top 1) 59 0 (by decide) (by decide) (by decide)
  have hback := hshown 0 0 (by decide)
  rw [hactive] at hchars
  exact ⟨hactive, hchars, by decide +kernel, by decide +kernel, hback.trans hpage⟩

end HieUnix
