import HieUnix.Screen

/-!
# What the output functions write

The effect of a character on one copy of a screen, as a function of that copy: `pagePutc` for the
bytes from a base address on, and `cursorPutc` for the cursor. A character of the active terminal
has this effect on its backup page and on the video memory alike (`terminalPutc_self_mem`), except
for the attribute byte under the pointer. For another terminal the loop of backspaces in
`scroll_up` erases the cell before the cursor of the active terminal over and over, in place of the
bottom row: that is `strayPutc` (`terminalPutc_of_ne`).
-/

namespace HieUnix

open Function

/-! ## One copy of a screen -/

/-- A page with the character and the attribute of cell `k` set. -/
def putCell (m : ℤ → Byte) (base k : ℤ) (c : Byte) : ℤ → Byte :=
  update (update m (base + 2 * k) c) (base + 2 * k + 1) attribByte

/-- A page with its lower 24 rows moved up by one. -/
def shiftRows (m : ℤ → Byte) (base : ℤ) : ℤ → Byte := memmove m base (base + 160) 3840

/-- A page with the characters of the cells from `lo` up to `hi` blank. -/
def blankCells (m : ℤ → Byte) (base lo hi : ℤ) : ℤ → Byte := fun b =>
  if base + 2 * lo ≤ b ∧ b < base + 2 * hi ∧ (b - base) % 2 = 0 then chr ' ' else m b

/-- A page scrolled up, with the first `x` cells of the bottom row blank. -/
def scrollPage (m : ℤ → Byte) (base x : ℤ) : ℤ → Byte :=
  blankCells (shiftRows m base) base 1920 (1920 + x)

/-- What a character at the cursor `(x, y)` makes of a page. -/
def pagePutc (m : ℤ → Byte) (base x y : ℤ) (c : Byte) : ℤ → Byte :=
  if isNewline c then
    if y = 24 then scrollPage m base x else m
  else if x = 79 ∧ y = 24 then scrollPage (putCell m base (80 * y + x) c) base 80
  else putCell m base (80 * y + x) c

/-- Where a character at the cursor `(x, y)` moves the cursor. -/
def cursorPutc (x y : ℤ) (c : Byte) : ℤ × ℤ :=
  if isNewline c then (0, if y = 24 then 24 else y + 1)
  else if x = 79 then (0, if y = 24 then 24 else y + 1)
  else (x + 1, y)

theorem pageBase_eq (t : Term) : pageBase t = video + 4096 * (t.val + 1) := by
  rw [pageBase, Int.mul_comm]

variable {m m' : ℤ → Byte} {a t u : Term} {s : Screen} {b base x y : ℤ} {c : Byte}

/-- A cell of a scrolled page, by offset. -/
theorem scrollPage_apply (m : ℤ → Byte) (base x j : ℤ) :
    scrollPage m base x (base + j)
      = if 3840 ≤ j ∧ j < 3840 + 2 * x ∧ j % 2 = 0 then chr ' '
        else if 0 ≤ j ∧ j < 3840 then m (base + (j + 160)) else m (base + j) := by
  have hmod : base + j - base = j := by omega
  have hsrc : base + 160 + j = base + (j + 160) := by omega
  simp only [scrollPage, blankCells, shiftRows, memmove, hmod, hsrc]
  congr 1
  · exact propext (by omega)
  · congr 1
    exact propext (by omega)

theorem putCell_apply (m : ℤ → Byte) (base k j : ℤ) (c : Byte) :
    putCell m base k c (base + j)
      = if j = 2 * k + 1 then attribByte else if j = 2 * k then c else m (base + j) := by
  simp only [putCell, update_apply]
  congr 1
  · exact propext (by omega)
  · congr 1
    exact propext (by omega)

/-- What becomes of the bytes of a page depends on these bytes alone. `ok` is a set of offsets that
the rows move within. -/
theorem pagePutc_congr {base' : ℤ} {ok : ℤ → Prop} (hok : ∀ j, ok j → j < 3840 → ok (j + 160))
    (h : ∀ j, ok j → m (base + j) = m' (base' + j)) (x y : ℤ) (c : Byte) {j : ℤ} (hj : ok j) :
    pagePutc m base x y c (base + j) = pagePutc m' base' x y c (base' + j) := by
  have hput : ∀ i, ok i → putCell m base (80 * y + x) c (base + i)
      = putCell m' base' (80 * y + x) c (base' + i) := by
    intro i hi
    rw [putCell_apply, putCell_apply, h i hi]
  have hscroll : ∀ (m m' : ℤ → Byte) (x : ℤ), (∀ i, ok i → m (base + i) = m' (base' + i)) →
      scrollPage m base x (base + j) = scrollPage m' base' x (base' + j) := by
    intro m m' x h
    rw [scrollPage_apply, scrollPage_apply, h j hj]
    split_ifs with _ hlt
    · rfl
    · exact h _ (hok j hj hlt.2)
    · rfl
  rw [pagePutc, pagePutc]
  split_ifs
  · exact hscroll m m' x h
  · exact h j hj
  · exact hscroll _ _ 80 hput
  · exact hput j hj

/-- A character changes only the 4000 bytes of the page. -/
theorem pagePutc_of_outside (hx : 0 ≤ x ∧ x < 80) (hy : 0 ≤ y ∧ y < 25) (m : ℤ → Byte) (c : Byte)
    (hb : b < base ∨ base + 4000 ≤ b) : pagePutc m base x y c b = m b := by
  obtain ⟨j, rfl⟩ : ∃ j, b = base + j := ⟨b - base, by omega⟩
  have hput : putCell m base (80 * y + x) c (base + j) = m (base + j) := by
    rw [putCell_apply, if_neg (by omega), if_neg (by omega)]
  have hscroll : ∀ (m : ℤ → Byte) (x : ℤ), x ≤ 80 →
      scrollPage m base x (base + j) = m (base + j) := by
    intro m x hx
    rw [scrollPage_apply, if_neg (by omega), if_neg (by omega)]
  rw [pagePutc]
  split_ifs
  · exact hscroll m x (by omega)
  · rfl
  · rw [hscroll _ 80 (by omega), hput]
  · exact hput

/-! ## Cursors in the grid -/

/-- The cursor of terminal `t` is inside the grid. -/
structure Screen.CursorInGrid (s : Screen) (t : Term) : Prop where
  x : 0 ≤ s.screenX t ∧ s.screenX t < 80
  y : 0 ≤ s.screenY t ∧ s.screenY t < 25

theorem Screen.CursorInGrid.congr {s' : Screen} (h : s.CursorInGrid t)
    (hX : s'.screenX t = s.screenX t) (hY : s'.screenY t = s.screenY t) : s'.CursorInGrid t := by
  constructor
  · rw [hX]
    exact h.x
  · rw [hY]
    exact h.y

theorem cursorPutc_inGrid (hx : 0 ≤ x ∧ x < 80) (hy : 0 ≤ y ∧ y < 25) (c : Byte) :
    (0 ≤ (cursorPutc x y c).1 ∧ (cursorPutc x y c).1 < 80) ∧
      0 ≤ (cursorPutc x y c).2 ∧ (cursorPutc x y c).2 < 25 := by
  rw [cursorPutc]
  split_ifs <;> dsimp only <;> omega

/-- The position of a cell, as the driver of the mouse computes it. -/
theorem toNat_position (hx : 0 ≤ x ∧ x < 80) (hy : 0 ≤ y ∧ y < 25) :
    ((BitVec.ofInt 32 (y * numCols + x)).toNat : ℤ) = 80 * y + x := by
  have hsum : (y * numCols + x) % 2 ^ 32 = 80 * y + x := by
    show (y * 80 + x) % 2 ^ 32 = 80 * y + x
    rw [Int.emod_eq_of_lt (by omega) (by omega), Int.mul_comm]
  rw [BitVec.toNat_ofInt]
  exact Int.toNat_of_nonneg (Int.emod_nonneg _ (by decide)) |>.trans hsum

/-- The pointer's position is that of a cell. -/
theorem Mouse.pos_lt (ms : Mouse) : ms.pos.toNat < 2000 := by
  have hx : 0 ≤ ms.mouseX 1 ∧ ms.mouseX 1 < 80 := ms.mouseX_mem 1
  have hy : 0 ≤ ms.mouseY 1 ∧ ms.mouseY 1 < 25 := ms.mouseY_mem 1
  have hpos : (ms.pos.toNat : ℤ) = 80 * ms.mouseY 1 + ms.mouseX 1 := toNat_position hx hy
  omega

/-- The attribute bytes of the visible cells are the only ones the mouse writes. -/
def NotAttribute (b : ℤ) : Prop := b < video ∨ video + 4000 ≤ b ∨ (b - video) % 2 = 0

/-- A character is no attribute byte of the video memory. -/
theorem notAttribute_video (i : ℤ) : NotAttribute (video + 2 * i) := by
  rw [NotAttribute]
  omega

theorem notAttribute_page (t : Term) (k : ℤ) : NotAttribute (pageBase t + 2 * k) := by
  have hpage := pageBase_eq t
  rw [NotAttribute]
  omega

/-- `update_attribute` stores one byte. -/
theorem updateAttribute_eq_store (s : Screen) (position attrib : Word) :
    ∃ v, updateAttribute s position attrib = s.store (video + (position <<< 1).toNat + 1) v := by
  by_cases h : (attrib = 2 ∧ s.mem (video + (position <<< 1).toNat + 1) = attribByte) ∨ attrib = 1
  · exact ⟨mouseAttrib, if_pos h⟩
  · exact ⟨attribByte, if_neg h⟩

theorem toNat_shiftLeft_one {position : Word} (hpos : position.toNat < 2000) :
    (position <<< 1).toNat = 2 * position.toNat := by
  rw [BitVec.toNat_shiftLeft, Nat.shiftLeft_eq, Nat.mod_eq_of_lt (by omega)]
  omega

theorem updateAttribute_mem {position : Word} (hpos : position.toNat < 2000) (attrib : Word)
    (hb : NotAttribute b) : (updateAttribute s position attrib).mem b = s.mem b := by
  obtain ⟨v, hv⟩ := updateAttribute_eq_store s position attrib
  rw [hv]
  apply update_of_ne
  rw [toNat_shiftLeft_one hpos]
  rw [NotAttribute] at hb
  omega

@[simp] theorem updateAttribute_screenX (s : Screen) (position attrib : Word) :
    (updateAttribute s position attrib).screenX = s.screenX := by
  obtain ⟨v, hv⟩ := updateAttribute_eq_store s position attrib
  rw [hv]
  rfl

@[simp] theorem updateAttribute_screenY (s : Screen) (position attrib : Word) :
    (updateAttribute s position attrib).screenY = s.screenY := by
  obtain ⟨v, hv⟩ := updateAttribute_eq_store s position attrib
  rw [hv]
  rfl

@[simp] theorem updateAttribute_currVidMem (s : Screen) (position attrib : Word) :
    (updateAttribute s position attrib).currVidMem = s.currVidMem := by
  obtain ⟨v, hv⟩ := updateAttribute_eq_store s position attrib
  rw [hv]
  rfl

@[simp] theorem updateAttribute_mouse (s : Screen) (position attrib : Word) :
    (updateAttribute s position attrib).mouse = s.mouse := by
  obtain ⟨v, hv⟩ := updateAttribute_eq_store s position attrib
  rw [hv]
  rfl

/-! ## Backspaces -/

/-- One more blank cell on the left. -/
theorem update_blankCells (m : ℤ → Byte) (base : ℤ) {lo hi : ℤ} (h : lo < hi) :
    update (blankCells m base (lo + 1) hi) (base + 2 * lo) (chr ' ') = blankCells m base lo hi := by
  funext b
  rw [update_apply, blankCells, blankCells]
  split_ifs <;> first | rfl | omega

/-- Blanking one cell commutes with blanking others. -/
theorem update_blankCells_comm (m : ℤ → Byte) (base lo hi b' : ℤ) :
    update (blankCells m base lo hi) b' (chr ' ')
      = blankCells (update m b' (chr ' ')) base lo hi := by
  funext b
  simp only [update_apply, blankCells]
  split_ifs <;> rfl

theorem blankCells_self (m : ℤ → Byte) (base lo : ℤ) : blankCells m base lo lo = m := by
  funext b
  rw [blankCells, if_neg (by omega)]

/-- A screen with the cells from `x - n` up to `x` of the active terminal's row `y` blank. -/
def Screen.erased (s : Screen) (a : Term) (n : ℤ) : Screen :=
  let k := 80 * s.screenY a + s.screenX a
  { s with
    mem := blankCells (blankCells s.mem (pageBase a) (k - n) k) video (k - n) k
    screenX := update s.screenX a (s.screenX a - n) }

/-- The backspaces of the active terminal erase what is before its cursor. -/
theorem backspaces_self (s : Screen) (a : Term) (n : ℕ) (hn : n ≤ s.screenX a) :
    (putBackspace a a)^[n] s = s.erased a n := by
  induction n with
  | zero => simp [Screen.erased, blankCells_self]
  | succ n ih =>
    rw [iterate_succ_apply', ih (by omega)]
    have hpos : ¬ s.screenX a - n ≤ 0 := by omega
    have hoff : 80 * s.screenY a + (s.screenX a - (n + 1))
        = 80 * s.screenY a + s.screenX a - (n + 1) := by omega
    have hlo : 80 * s.screenY a + s.screenX a - n
        = 80 * s.screenY a + s.screenX a - (n + 1) + 1 := by omega
    have hx : s.screenX a - n - 1 = s.screenX a - (n + 1) := by omega
    simp only [putBackspace, Screen.erased, update_self, hpos, if_false, if_true, Screen.store,
      Screen.setCursor, update_idem, update_eq_self, Nat.cast_ofNat, hoff, hlo, hx,
      Nat.cast_add, Nat.cast_one]
    rw [update_blankCells_comm, update_blankCells _ _ (by omega), update_blankCells _ _ (by omega)]

/-- The cell before the cursor of the active terminal. -/
def Screen.strayCell (s : Screen) (a : Term) : ℤ := 80 * s.screenY a + s.screenX a - 1

/-- The backspaces of another terminal all erase one cell. -/
theorem backspaces_of_ne (s : Screen) (h : t ≠ a) (n : ℕ) (hn : n ≤ s.screenX t) :
    (putBackspace a t)^[n] s
      = { s with
          mem := if n = 0 then s.mem
            else update s.mem (pageBase t + 2 * s.strayCell a) (chr ' ')
          screenX := update s.screenX t (s.screenX t - n) } := by
  induction n with
  | zero => simp
  | succ n ih =>
    rw [iterate_succ_apply', ih (by omega)]
    have hpos : ¬ s.screenX t - n ≤ 0 := by omega
    have hoff : 80 * s.screenY a + (s.screenX a - 1) = s.strayCell a := by
      rw [Screen.strayCell]
      omega
    have hx : s.screenX t - n - 1 = s.screenX t - (n + 1) := by omega
    simp only [putBackspace, update_self, hpos, if_false, h, Screen.store, Screen.setCursor,
      update_of_ne h.symm, update_idem, update_eq_self, Nat.cast_ofNat, hoff, hx, Nat.cast_add,
      Nat.cast_one, Nat.add_one_ne_zero]
    split_ifs
    · rfl
    · rw [update_idem]

/-! ## Scrolling -/

/-- Two screens that differ at most in attribute bytes of the video memory. -/
structure Screen.SameText (s s' : Screen) : Prop where
  mem : ∀ b, NotAttribute b → s.mem b = s'.mem b
  screenX : s.screenX = s'.screenX
  screenY : s.screenY = s'.screenY
  currVidMem : s.currVidMem = s'.currVidMem
  mouse : s.mouse = s'.mouse

theorem Screen.SameText.refl (s : Screen) : s.SameText s := ⟨fun _ _ => rfl, rfl, rfl, rfl, rfl⟩

theorem Screen.SameText.trans {s s' s'' : Screen} (h : s.SameText s') (h' : s'.SameText s'') :
    s.SameText s'' := by
  constructor
  · intro b hb
    rw [h.mem b hb, h'.mem b hb]
  · rw [h.screenX, h'.screenX]
  · rw [h.screenY, h'.screenY]
  · rw [h.currVidMem, h'.currVidMem]
  · rw [h.mouse, h'.mouse]

theorem sameText_updateAttribute {position : Word} (hpos : position.toNat < 2000) (attrib : Word) :
    (updateAttribute s position attrib).SameText s := by
  constructor
  · intro b hb
    exact updateAttribute_mem hpos attrib hb
  · exact updateAttribute_screenX s position attrib
  · exact updateAttribute_screenY s position attrib
  · exact updateAttribute_currVidMem s position attrib
  · exact updateAttribute_mouse s position attrib

theorem sameText_resetCursor (s : Screen) : (resetCursor s).SameText s :=
  sameText_updateAttribute s.mouse.pos_lt 2

theorem sameText_selectLoop (white : Word) {n : ℕ} {i : Word} (h : i.toNat + n ≤ 2000)
    (s : Screen) : (selectLoop white n i s).SameText s := by
  induction n generalizing i s with
  | zero => exact .refl s
  | succ n ih =>
    have hnext : (i + 1).toNat = i.toNat + 1 := by bv_omega
    rw [selectLoop]
    exact (ih (by omega) _).trans (sameText_updateAttribute (by omega) white)

theorem sameText_select {pos1 pos2 : Word} (h1 : pos1.toNat < 2000) (h2 : pos2.toNat < 2000)
    (white : Word) (s : Screen) : (select s pos1 pos2 white).SameText s := by
  rw [select]
  split_ifs with hlt
  · have hle : pos1.toNat < pos2.toNat := hlt
    exact sameText_selectLoop white (by omega) s
  · have hle : pos2.toNat ≤ pos1.toNat := Nat.le_of_not_lt hlt
    exact sameText_selectLoop white (by omega) s

/-- Scrolling moves bytes that are no attributes of the video memory to such places. -/
theorem scrollPage_congr (hbase : base = video ∨ base = pageBase t)
    (h : ∀ b, NotAttribute b → m b = m' b) (x : ℤ) (hb : NotAttribute b) :
    scrollPage m base x b = scrollPage m' base x b := by
  obtain ⟨j, rfl⟩ : ∃ j, b = base + j := ⟨b - base, by omega⟩
  have hpage := pageBase_eq t
  rw [scrollPage_apply, scrollPage_apply, h _ hb]
  split_ifs with _ hlt
  · rfl
  · apply h
    rw [NotAttribute] at hb ⊢
    omega
  · rfl

/-- The two copies of a screen do not overlap. -/
theorem scrollPage_putCell_comm (m : ℤ → Byte) (t : Term) {k x : ℤ} (c : Byte)
    (hk : 0 ≤ k ∧ k < 2000) (hx : x ≤ 80) :
    scrollPage (putCell m video k c) (pageBase t) x
      = putCell (scrollPage m (pageBase t) x) video k c := by
  have hpage := pageBase_eq t
  funext b
  obtain ⟨j, rfl⟩ : ∃ j, b = pageBase t + j := ⟨b - pageBase t, by omega⟩
  obtain ⟨i, hi⟩ : ∃ i, pageBase t + j = video + i := ⟨pageBase t + j - video, by omega⟩
  obtain ⟨i', hi'⟩ : ∃ i', pageBase t + (j + 160) = video + i' := ⟨i + 160, by omega⟩
  rw [scrollPage_apply, hi, hi', putCell_apply, putCell_apply, putCell_apply, ← hi, ← hi',
    scrollPage_apply]
  split_ifs <;> first | rfl | omega

/-- The code shifts the rows of both copies before it blanks the bottom row of either. -/
theorem blankCells_shiftRows (m : ℤ → Byte) (t : Term) {x : ℤ} (hx : x ≤ 80) :
    blankCells (blankCells (shiftRows (shiftRows m (pageBase t)) video) (pageBase t) 1920 (1920 + x))
        video 1920 (1920 + x)
      = scrollPage (scrollPage m (pageBase t) x) video x := by
  have hpage := pageBase_eq t
  funext b
  simp only [scrollPage, blankCells, shiftRows, memmove]
  split_ifs <;> first | rfl | omega

/-- A screen of which both copies of terminal `a` are scrolled up. -/
def Screen.scrolled (s : Screen) (a : Term) : Screen :=
  { s with
    mem := scrollPage (scrollPage s.mem (pageBase a) (s.screenX a)) video (s.screenX a)
    screenX := update s.screenX a 0 }

/-- Between the two pointer updates, `scroll_up` of the active terminal scrolls both copies. -/
theorem scrollUp_self_eq (hx : 0 ≤ s.screenX a ∧ s.screenX a ≤ 80) (hy : s.screenY a = 24) :
    scrollUp a s (s.screenX a) a = resetCursor ((removeCursor s).scrolled a) := by
  have hX : (removeCursor s).screenX = s.screenX := updateAttribute_screenX s _ _
  have hY : (removeCursor s).screenY = s.screenY := updateAttribute_screenY s _ _
  have hn : ((s.screenX a).toNat : ℤ) = s.screenX a := Int.toNat_of_nonneg hx.1
  have hlo : 1920 + s.screenX a - s.screenX a = 1920 := by omega
  have hhi : 80 * s.screenY a + s.screenX a = 1920 + s.screenX a := by omega
  have hcursor : update s.screenY a 24 = s.screenY := by rw [← hy, update_eq_self]
  have hrow : (2 * (numCols : ℤ)) = 160 := rfl
  have hrows : 2 * ((numRows - 1) * numCols) = 3840 := rfl
  have hlast : (numRows : ℤ) - 1 = 24 := rfl
  have hshift := blankCells_shiftRows (removeCursor s).mem a hx.2
  simp only [shiftRows] at hshift
  simp only [scrollUp, if_true]
  rw [backspaces_self _ a _ (by simp only [hX]; omega)]
  simp only [Screen.erased, Screen.setCursor, Screen.scrolled, hX, hY, hn, hhi, hlo, update_self,
    Int.sub_self, update_idem, hrow, hrows, hlast, hcursor, hshift]

theorem scrollUp_self (hx : 0 ≤ s.screenX a ∧ s.screenX a ≤ 80) (hy : s.screenY a = 24) :
    (scrollUp a s (s.screenX a) a).SameText (s.scrolled a) := by
  have hremove : ∀ b, NotAttribute b → (removeCursor s).mem b = s.mem b :=
    fun b hb => updateAttribute_mem s.mouse.pos_lt 0 hb
  rw [scrollUp_self_eq hx hy]
  constructor
  · intro b hb
    have hX : (removeCursor s).screenX = s.screenX := updateAttribute_screenX s _ _
    rw [resetCursor, updateAttribute_mem (Mouse.pos_lt _) _ hb]
    simp only [Screen.scrolled, hX]
    apply scrollPage_congr (t := a) (.inl rfl) _ _ hb
    intro b hb
    exact scrollPage_congr (.inr rfl) hremove _ hb
  · simp [resetCursor, Screen.scrolled, removeCursor]
  · simp [resetCursor, Screen.scrolled, removeCursor]
  · simp [resetCursor, Screen.scrolled, removeCursor]
  · simp [resetCursor, Screen.scrolled, removeCursor]

/-- What the scrolling of another terminal makes of its page: `k` is the cell it erases. -/
def strayScroll (m : ℤ → Byte) (base k x : ℤ) : ℤ → Byte :=
  if x = 0 then shiftRows m base else update (shiftRows m base) (base + 2 * k) (chr ' ')

theorem scrollUp_of_ne (h : t ≠ a) (hx : 0 ≤ s.screenX t) (hy : s.screenY t = 24) :
    scrollUp a s (s.screenX t) t
      = { s with
          mem := strayScroll s.mem (pageBase t) (s.strayCell a) (s.screenX t)
          screenX := update s.screenX t 0 } := by
  have hn : ((s.screenX t).toNat : ℤ) = s.screenX t := Int.toNat_of_nonneg hx
  have hzero : (s.screenX t).toNat = 0 ↔ s.screenX t = 0 := by omega
  have hcursor : update s.screenY t 24 = s.screenY := by rw [← hy, update_eq_self]
  have hrow : (2 * (numCols : ℤ)) = 160 := rfl
  have hrows : 2 * ((numRows - 1) * numCols) = 3840 := rfl
  have hlast : (numRows : ℤ) - 1 = 24 := rfl
  simp only [scrollUp, h, h.symm, if_false]
  rw [backspaces_of_ne _ h _ (by simp only; omega)]
  simp only [Screen.setCursor, Screen.strayCell, strayScroll, shiftRows, hn, hzero, Int.sub_self,
    update_self, update_idem, hrow, hrows, hlast, hcursor]

/-! ## The cursor -/

theorem newline_of_last (hy : s.screenY t = 24) :
    newline a s t = (scrollUp a s (s.screenX t) t).setCursor t 0
      ((scrollUp a s (s.screenX t) t).screenY t) := by
  have hback : (s.setCursor t (s.screenX t) (s.screenY t + 1)).setCursor t (s.screenX t)
      (s.screenY t + 1 - 1) = s := by
    simp [Screen.setCursor]
  have hrows : s.screenY t + 1 = numRows := by
    rw [hy]
    rfl
  have hX : (s.setCursor t (s.screenX t) (s.screenY t + 1)).screenX t = s.screenX t :=
    update_self t _ _
  have hY : (s.setCursor t (s.screenX t) (s.screenY t + 1)).screenY t = s.screenY t + 1 :=
    update_self t _ _
  simp only [newline, hX, hY, if_pos hrows, hback]

theorem newline_of_ne_last (hy : s.screenY t ≠ 24) :
    newline a s t = s.setCursor t 0 (s.screenY t + 1) := by
  have hrows : ¬ s.screenY t + 1 = numRows := by
    show ¬ s.screenY t + 1 = 25
    omega
  have hY : (s.setCursor t (s.screenX t) (s.screenY t + 1)).screenY t = s.screenY t + 1 :=
    update_self t _ _
  simp only [newline, hY, if_neg hrows]
  simp [Screen.setCursor]

theorem advance_of_last (hx : s.screenX t = 80) (hy : s.screenY t = 24) :
    advance a s t = scrollUp a s (s.screenX t) t := by
  have hlast : s.screenX t = numCols ∧ s.screenY t = numRows - 1 := ⟨hx, hy⟩
  rw [advance, if_neg (not_not_intro hlast), hx]
  rfl

theorem advance_of_full (hx : s.screenX t = 80) (hy : 0 ≤ s.screenY t ∧ s.screenY t < 24) :
    advance a s t = s.setCursor t 0 (s.screenY t + 1) := by
  have hlast : ¬ (s.screenX t = numCols ∧ s.screenY t = numRows - 1) := fun h => by
    have hy24 : s.screenY t = 24 := h.2
    omega
  rw [advance, if_pos hlast, hx]
  have hrow : (s.screenY t + Int.tdiv 80 numCols).tmod numRows = s.screenY t + 1 :=
    Int.tmod_eq_of_lt (show 0 ≤ s.screenY t + 1 by omega) (show s.screenY t + 1 < 25 by omega)
  rw [hrow]
  rfl

theorem advance_of_lt (hx : 0 ≤ s.screenX t ∧ s.screenX t < 80)
    (hy : 0 ≤ s.screenY t ∧ s.screenY t < 25) : advance a s t = s := by
  have hlast : ¬ (s.screenX t = numCols ∧ s.screenY t = numRows - 1) := fun h => by
    have hx80 : s.screenX t = 80 := h.1
    omega
  rw [advance, if_pos hlast]
  have hcol : (s.screenX t).tmod numCols = s.screenX t := Int.tmod_eq_of_lt hx.1 hx.2
  have hdiv : (s.screenX t).tdiv numCols = 0 := Int.tdiv_eq_zero_of_lt hx.1 hx.2
  have hrow : (s.screenY t + 0).tmod numRows = s.screenY t := by
    rw [Int.add_zero]
    exact Int.tmod_eq_of_lt hy.1 hy.2
  rw [hcol, hdiv, hrow]
  simp [Screen.setCursor]

/-! ## A character -/

/-- A screen with a character printed on both copies of terminal `a`. -/
def Screen.printed (s : Screen) (a : Term) (c : Byte) : Screen :=
  let x := s.screenX a
  let y := s.screenY a
  { s with
    mem := pagePutc (pagePutc s.mem (pageBase a) x y c) video x y c
    screenX := update s.screenX a (cursorPutc x y c).1
    screenY := update s.screenY a (cursorPutc x y c).2 }

theorem Screen.SameText.setCursor {s s' : Screen} (h : s.SameText s') (t : Term) (x y : ℤ) :
    (s.setCursor t x y).SameText (s'.setCursor t x y) := by
  constructor
  · exact h.mem
  · show update s.screenX t x = update s'.screenX t x
    rw [h.screenX]
  · show update s.screenY t y = update s'.screenY t y
    rw [h.screenY]
  · exact h.currVidMem
  · exact h.mouse

/-- The bytes `terminal_putc` of the active terminal stores before it moves the cursor. -/
theorem store_cell (s : Screen) (base k : ℤ) (c : Byte) :
    (s.store (base + 2 * k) c).store (base + 2 * k + 1) attribByte
      = { s with mem := putCell s.mem base k c } := rfl

/-- A screen with a character stored at the cursor of the active terminal, and the cursor not yet
wrapped. -/
def Screen.stored (s : Screen) (a : Term) (c : Byte) : Screen :=
  let k := 80 * s.screenY a + s.screenX a
  { s with
    mem := putCell (putCell s.mem (pageBase a) k c) video k c
    screenX := update s.screenX a (s.screenX a + 1) }

theorem Screen.stored_screenX (s : Screen) (a : Term) (c : Byte) :
    (s.stored a c).screenX a = s.screenX a + 1 := update_self a _ _

theorem terminalPutc_self_char (hc : isNewline c = false) :
    terminalPutc a a s c = advance a (s.stored a c) a := by
  simp only [terminalPutc, hc, if_true, store_cell, Screen.setCursor, update_eq_self]
  rfl

/-- **A character of the active terminal has the same effect on its page and on the video
memory.** -/
theorem terminalPutc_self (hg : s.CursorInGrid a) (c : Byte) :
    (terminalPutc a a s c).SameText (s.printed a c) := by
  have hx := hg.x
  have hy := hg.y
  -- a newline starts the next row; another character is stored first
  cases hc : isNewline c with
  | true =>
    have hterm : terminalPutc a a s c = newline a s a := if_pos hc
    rw [hterm]
    -- on the last row the text moves up
    by_cases hlast : s.screenY a = 24
    · have hscroll := scrollUp_self ⟨hx.1, by omega⟩ hlast
      have heq : (s.scrolled a).setCursor a 0 ((s.scrolled a).screenY a) = s.printed a c := by
        simp [Screen.setCursor, Screen.scrolled, Screen.printed, pagePutc, cursorPutc, hc, hlast]
      rw [newline_of_last hlast, hscroll.screenY, ← heq]
      exact hscroll.setCursor a 0 _
    · have heq : s.setCursor a 0 (s.screenY a + 1) = s.printed a c := by
        simp [Screen.setCursor, Screen.printed, pagePutc, cursorPutc, hc, hlast]
      rw [newline_of_ne_last hlast, heq]
      exact .refl _
  | false =>
    rw [terminalPutc_self_char hc]
    have hX := s.stored_screenX a c
    have hY : (s.stored a c).screenY a = s.screenY a := rfl
    -- in the last column the cursor goes to the next row
    by_cases hfull : s.screenX a = 79
    · by_cases hlast : s.screenY a = 24
      · -- the character fills the last row
        have hk : 80 * s.screenY a + s.screenX a = 1999 := by omega
        have hscroll := scrollUp_self (a := a) (s := s.stored a c) (by omega) hlast
        have hcomm := scrollPage_putCell_comm (k := 1999) (x := 80)
          (putCell s.mem (pageBase a) 1999 c) a c (by omega) (by omega)
        have heq : (s.stored a c).scrolled a = s.printed a c := by
          simp [Screen.scrolled, Screen.printed, Screen.stored, pagePutc, cursorPutc, hc, hfull,
            hlast, hcomm]
        rw [advance_of_last (by omega) (hY.trans hlast), ← heq]
        exact hscroll
      · have heq : (s.stored a c).setCursor a 0 (s.screenY a + 1) = s.printed a c := by
          simp [Screen.setCursor, Screen.printed, Screen.stored, pagePutc, cursorPutc, hc, hfull,
            hlast]
        rw [advance_of_full (by omega) (by omega), hY, heq]
        exact .refl _
    · have heq : s.stored a c = s.printed a c := by
        simp [Screen.printed, Screen.stored, pagePutc, cursorPutc, hc, hfull]
      rw [advance_of_lt (by omega) (by omega), heq]
      exact .refl _

/-- What a character of another terminal makes of its page: `k` is the cell that `put_backspace`
erases. -/
def strayPutc (m : ℤ → Byte) (base k x y : ℤ) (c : Byte) : ℤ → Byte :=
  if isNewline c then
    if y = 24 then strayScroll m base k x else m
  else if x = 79 ∧ y = 24 then strayScroll (putCell m base (80 * y + x) c) base k 80
  else putCell m base (80 * y + x) c

/-- Outside its page such a character writes at most the stray cell. -/
theorem strayPutc_of_outside {k : ℤ} (hx : 0 ≤ x ∧ x < 80) (hy : 0 ≤ y ∧ y < 25) (m : ℤ → Byte)
    (c : Byte) (hb : b < base ∨ base + 4000 ≤ b) (hk : b ≠ base + 2 * k) :
    strayPutc m base k x y c b = m b := by
  obtain ⟨j, rfl⟩ : ∃ j, b = base + j := ⟨b - base, by omega⟩
  have hput : putCell m base (80 * y + x) c (base + j) = m (base + j) := by
    rw [putCell_apply, if_neg (by omega), if_neg (by omega)]
  have hshift : ∀ m : ℤ → Byte, shiftRows m base (base + j) = m (base + j) := by
    intro m
    rw [shiftRows, memmove, if_neg (by omega)]
  have hscroll : ∀ (m : ℤ → Byte) (x : ℤ), strayScroll m base k x (base + j) = m (base + j) := by
    intro m x
    rw [strayScroll]
    split_ifs
    · exact hshift m
    · rw [update_of_ne hk]
      exact hshift m
  rw [strayPutc]
  split_ifs
  · exact hscroll m x
  · rfl
  · rw [hscroll, hput]
  · exact hput

/-- A screen with a character stored at the cursor of another terminal, and the cursor not yet
wrapped. -/
def Screen.storedBehind (s : Screen) (t : Term) (c : Byte) : Screen :=
  { s with
    mem := putCell s.mem (pageBase t) (80 * s.screenY t + s.screenX t) c
    screenX := update s.screenX t (s.screenX t + 1) }

theorem Screen.storedBehind_screenX (s : Screen) (t : Term) (c : Byte) :
    (s.storedBehind t c).screenX t = s.screenX t + 1 := update_self t _ _

theorem terminalPutc_of_ne_char (h : t ≠ a) (hc : isNewline c = false) :
    terminalPutc a t s c = advance a (s.storedBehind t c) t := by
  simp only [terminalPutc, hc, h.symm, if_false, store_cell, Screen.setCursor, update_eq_self]
  rfl

/-- **A character of another terminal leaves the video memory alone.** -/
theorem terminalPutc_of_ne (h : t ≠ a) (hg : s.CursorInGrid t) (c : Byte) :
    terminalPutc a t s c
      = { s with
          mem := strayPutc s.mem (pageBase t) (s.strayCell a) (s.screenX t) (s.screenY t) c
          screenX := update s.screenX t (cursorPutc (s.screenX t) (s.screenY t) c).1
          screenY := update s.screenY t (cursorPutc (s.screenX t) (s.screenY t) c).2 } := by
  have hx := hg.x
  have hy := hg.y
  cases hc : isNewline c with
  | true =>
    have hterm : terminalPutc a t s c = newline a s t := if_pos hc
    rw [hterm]
    by_cases hlast : s.screenY t = 24
    · rw [newline_of_last hlast, scrollUp_of_ne h hx.1 hlast]
      simp [Screen.setCursor, strayPutc, cursorPutc, hc, hlast]
    · rw [newline_of_ne_last hlast]
      simp [Screen.setCursor, strayPutc, cursorPutc, hc, hlast]
  | false =>
    have hX := s.storedBehind_screenX t c
    have hY : (s.storedBehind t c).screenY t = s.screenY t := rfl
    rw [terminalPutc_of_ne_char h hc]
    by_cases hfull : s.screenX t = 79
    · by_cases hlast : s.screenY t = 24
      · have hstray : (s.storedBehind t c).strayCell a = s.strayCell a := by
          simp only [Screen.strayCell, Screen.storedBehind, update_of_ne h.symm]
        rw [advance_of_last (by omega) (hY.trans hlast),
          scrollUp_of_ne h (by omega) (hY.trans hlast), hstray]
        simp [Screen.storedBehind, strayPutc, cursorPutc, hc, hfull, hlast]
      · rw [advance_of_full (by omega) (by omega)]
        simp [Screen.setCursor, Screen.storedBehind, strayPutc, cursorPutc, hc, hfull, hlast]
    · rw [advance_of_lt (by omega) (by omega)]
      simp [Screen.storedBehind, strayPutc, cursorPutc, hc, hfull]

theorem putc_char (h : s.currVidMem = pageBase a) (hc : isNewline c = false) :
    putc a s c = advance a (s.stored a c) a := by
  simp only [putc, hc, Bool.false_eq_true, if_false, Screen.store, Screen.setCursor, h,
    update_eq_self, Screen.stored, putCell]
  rfl

/-- `putc` is `terminal_putc` of the active terminal. -/
theorem putc_eq_terminalPutc (h : s.currVidMem = pageBase a) (c : Byte) :
    putc a s c = terminalPutc a a s c := by
  cases hc : isNewline c with
  | true =>
    have hterm : terminalPutc a a s c = newline a s a := if_pos hc
    rw [hterm, putc, if_pos hc]
  | false => rw [putc_char h hc, terminalPutc_self_char hc]

end HieUnix
