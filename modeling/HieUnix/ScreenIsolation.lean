import HieUnix.ScreenOutput

/-!
# Output of a background terminal

A character of terminal `t` should do the same to `t`'s page and cursor whether or not `t` is the
active terminal, and nothing to any other page or to the visible screen: `OutputIsolated`. The
common effect is `putcOnPage`. It is what happens unless the character scrolls a background
terminal: then the backspaces of `scroll_up` take their index from the cursor of the active
terminal, and the property holds exactly if the cells they should blank and the cell they do blank
hold a blank anyway (`outputIsolated_iff`).
-/

namespace HieUnix

open Function

variable {a t u : Term} {s : Screen} {c : Byte}

/-! ## The property -/

/-- The backup page of a terminal. -/
def Screen.page (s : Screen) (t : Term) : Fin 4096 → Byte := fun i => s.mem (pageBase t + i.val)

/-- A function of a page, a cursor and a character: the new page and cursor. -/
abbrev PageEffect := (Fin 4096 → Byte) → ℤ → ℤ → Byte → (Fin 4096 → Byte) × ℤ × ℤ

/-- `terminal_putc` of a process of terminal `t`, while `a` is active, has the effect `F` on `t`'s
page and cursor, and no other effect that is seen. -/
structure OutputIsolated (F : PageEffect) (s : Screen) (a t : Term) (c : Byte) : Prop where
  page : (terminalPutc a t s c).page t = (F (s.page t) (s.screenX t) (s.screenY t) c).1
  screenX : (terminalPutc a t s c).screenX t = (F (s.page t) (s.screenX t) (s.screenY t) c).2.1
  screenY : (terminalPutc a t s c).screenY t = (F (s.page t) (s.screenX t) (s.screenY t) c).2.2
  other : ∀ u, u ≠ t → (terminalPutc a t s c).page u = s.page u ∧
    (terminalPutc a t s c).screenX u = s.screenX u ∧
    (terminalPutc a t s c).screenY u = s.screenY u
  visible : t ≠ a → ∀ i : ℕ, i < 4000 → (terminalPutc a t s c).mem (video + i) = s.mem (video + i)

/-- A page as a memory, with its first byte at address 0. -/
def pageMem (p : Fin 4096 → Byte) : ℤ → Byte := fun b =>
  if h : b.toNat < 4096 then p ⟨b.toNat, h⟩ else 0

/-- The effect of a character on a page and its cursor. -/
def putcOnPage : PageEffect := fun p x y c =>
  (fun i => pagePutc (pageMem p) 0 x y c i.val, (cursorPutc x y c).1, (cursorPutc x y c).2)

/-! ## The condition -/

/-- How many cells at the start of the bottom row of `t`'s page `scroll_up` is to erase. -/
def Screen.eraseCount (s : Screen) (t : Term) (c : Byte) : ℤ :=
  if isNewline c then if s.screenY t = 24 then s.screenX t else 0
  else if s.screenX t = 79 ∧ s.screenY t = 24 then 80 else 0

/-- The character that moves to cell `j` of `t`'s page when its rows move up. A character that
fills the last row is in its last cell by then. -/
def Screen.movedUp (s : Screen) (t : Term) (c : Byte) (j : ℤ) : Byte :=
  let i := if 0 ≤ j ∧ j < 1920 then j + 80 else j
  if ¬ isNewline c ∧ i = 1999 then c else s.mem (pageBase t + 2 * i)

/-- The backspaces change nothing they should not, and leave nothing they should change: each cell
that is to be erased and is not, or is erased and should not be, holds a blank already. The cell
-1 of terminal 0 is not on the screen. -/
def BackspacesHarmless (s : Screen) (a t : Term) (c : Byte) : Prop :=
  t = a ∨ s.eraseCount t c = 0 ∨
    ∀ j, ¬ (1920 ≤ j ∧ j < 1920 + s.eraseCount t c ↔ j = s.strayCell a) →
      j = -1 ∧ t = 0 ∨ s.movedUp t c j = chr ' '

/-! ## The effect on a page -/

theorem putcOnPage_page (s : Screen) (t : Term) (x y : ℤ) (c : Byte) (i : Fin 4096) :
    (putcOnPage (s.page t) x y c).1 i = pagePutc s.mem (pageBase t) x y c (pageBase t + i.val) := by
  have hok : ∀ j : ℤ, 0 ≤ j ∧ j < 4096 → j < 3840 → 0 ≤ j + 160 ∧ j + 160 < 4096 := by
    intro j hj hlt
    omega
  have hpage : ∀ j : ℤ, 0 ≤ j ∧ j < 4096 →
      pageMem (s.page t) (0 + j) = s.mem (pageBase t + j) := by
    intro j hj
    have hlt : (0 + j).toNat < 4096 := by omega
    have hj' : (((0 + j).toNat : ℕ) : ℤ) = j := by omega
    rw [pageMem, dif_pos hlt]
    show s.mem (pageBase t + ((0 + j).toNat : ℕ)) = _
    rw [hj']
  have hi : (0 : ℤ) ≤ i.val ∧ (i.val : ℤ) < 4096 := by omega
  have hcongr := pagePutc_congr hok hpage x y c hi
  rw [Int.zero_add] at hcongr
  exact hcongr

/-- When nothing is to be erased, the background makes no difference. -/
theorem strayPutc_of_eraseCount_eq_zero (h : s.eraseCount t c = 0) (m : ℤ → Byte) (base k : ℤ) :
    strayPutc m base k (s.screenX t) (s.screenY t) c
      = pagePutc m base (s.screenX t) (s.screenY t) c := by
  rw [Screen.eraseCount] at h
  rw [strayPutc, pagePutc]
  split_ifs at h ⊢ with hc hy
  · have hscroll : scrollPage m base 0 = shiftRows m base := blankCells_self _ _ _
    rw [h, hscroll, strayScroll, if_pos rfl]
  · rfl
  · omega
  · rfl

/-- When something is to be erased, the two effects differ in what is blanked after the rows have
moved up. -/
theorem exists_movedUp (hg : s.CursorInGrid t) (h : s.eraseCount t c ≠ 0) (k : ℤ) :
    ∃ f : ℤ → Byte,
      strayPutc s.mem (pageBase t) k (s.screenX t) (s.screenY t) c
          = update f (pageBase t + 2 * k) (chr ' ') ∧
        pagePutc s.mem (pageBase t) (s.screenX t) (s.screenY t) c
          = blankCells f (pageBase t) 1920 (1920 + s.eraseCount t c) ∧
        (∀ j < 2000, f (pageBase t + 2 * j) = s.movedUp t c j) ∧
        ∀ b, b < pageBase t ∨ pageBase t + 4000 ≤ b → f b = s.mem b := by
  have hx := hg.x
  have hshift : ∀ (m : ℤ → Byte) (j : ℤ), shiftRows m (pageBase t) (pageBase t + j)
      = if 0 ≤ j ∧ j < 3840 then m (pageBase t + (j + 160)) else m (pageBase t + j) := by
    intro m j
    have h0 := scrollPage_apply m (pageBase t) 0 j
    rw [scrollPage, Int.add_zero, blankCells_self, if_neg (by omega)] at h0
    exact h0
  -- when the rows have moved up, each cell holds what `movedUp` says
  have hmoved : ∀ (m : ℤ → Byte) (j : ℤ), j < 2000 →
      (∀ i, m (pageBase t + 2 * i)
        = if ¬ isNewline c ∧ i = 1999 then c else s.mem (pageBase t + 2 * i)) →
      shiftRows m (pageBase t) (pageBase t + 2 * j) = s.movedUp t c j := by
    intro m j hj hm
    rw [hshift, Screen.movedUp]
    by_cases hup : 0 ≤ j ∧ j < 1920
    · have hsrc : 2 * j + 160 = 2 * (j + 80) := by omega
      rw [if_pos (by omega), if_pos hup, hsrc]
      exact hm (j + 80)
    · rw [if_neg (by omega), if_neg hup]
      exact hm j
  rw [Screen.eraseCount] at h ⊢
  rw [strayPutc, pagePutc]
  split_ifs at h ⊢ with hc hy hfull
  · -- a newline on the last row
    refine ⟨shiftRows s.mem (pageBase t), ?_, rfl, ?_, ?_⟩
    · rw [strayScroll, if_neg h]
    · intro j hj
      apply hmoved _ j hj
      intro i
      rw [if_neg (fun hboth => hboth.1 hc)]
    · intro b hb
      obtain ⟨j, rfl⟩ : ∃ j, b = pageBase t + j := ⟨b - pageBase t, by omega⟩
      rw [hshift, if_neg (by omega)]
  · exact absurd rfl h
  · -- a character in the last cell
    have hk : 80 * s.screenY t + s.screenX t = 1999 := by omega
    rw [hk]
    refine ⟨shiftRows (putCell s.mem (pageBase t) 1999 c) (pageBase t), ?_, rfl, ?_, ?_⟩
    · rw [strayScroll, if_neg (by omega)]
    · intro j hj
      apply hmoved _ j hj
      intro i
      rw [putCell_apply, if_neg (by omega)]
      by_cases hi : i = 1999
      · rw [if_pos (by omega), if_pos ⟨hc, hi⟩]
      · rw [if_neg (by omega), if_neg (fun hboth => hi hboth.2)]
    · intro b hb
      obtain ⟨j, rfl⟩ : ∃ j, b = pageBase t + j := ⟨b - pageBase t, by omega⟩
      rw [hshift, if_neg (by omega), putCell_apply, if_neg (by omega), if_neg (by omega)]
  · exact absurd rfl h

/-! ## The active terminal -/

/-- Different terminals have different pages. -/
theorem pageBase_far (h : u ≠ t) :
    pageBase u + 4096 ≤ pageBase t ∨ pageBase t + 4096 ≤ pageBase u := by
  have hu := pageBase_eq u
  have ht := pageBase_eq t
  have hne : u.val ≠ t.val := Fin.val_ne_of_ne h
  omega

theorem outputIsolated_self (hg : s.CursorInGrid a) (c : Byte) :
    OutputIsolated putcOnPage s a a c := by
  have hpage := pageBase_eq a
  have hsame := terminalPutc_self hg c
  -- above the screen, the memory is as `pagePutc` leaves it
  have hmem : ∀ b, pageBase 0 ≤ b → (terminalPutc a a s c).mem b
      = pagePutc s.mem (pageBase a) (s.screenX a) (s.screenY a) c b := by
    intro b hb
    have hb' : video + 4000 ≤ b := by
      have h0 := pageBase_eq 0
      have hz : ((0 : Term).val : ℤ) = 0 := rfl
      omega
    rw [hsame.mem b (.inr (.inl hb'))]
    exact pagePutc_of_outside hg.x hg.y _ _ (.inr hb')
  have hle : ∀ (u : Term) (i : Fin 4096), pageBase 0 ≤ pageBase u + i.val := by
    intro u i
    have h0 := pageBase_eq 0
    have hu := pageBase_eq u
    have hz : ((0 : Term).val : ℤ) = 0 := rfl
    omega
  constructor
  · funext i
    rw [putcOnPage_page]
    exact hmem _ (hle a i)
  · rw [hsame.screenX]
    exact update_self a _ _
  · rw [hsame.screenY]
    exact update_self a _ _
  · intro u hu
    refine ⟨?_, ?_, ?_⟩
    · funext i
      show (terminalPutc a a s c).mem _ = s.mem _
      rw [hmem _ (hle u i)]
      apply pagePutc_of_outside hg.x hg.y
      have hfar := pageBase_far hu
      omega
    · rw [hsame.screenX]
      exact update_of_ne hu _ _
    · rw [hsame.screenY]
      exact update_of_ne hu _ _
  · intro h
    exact absurd rfl h

/-! ## Another terminal -/

/-- For a background terminal, isolation is a matter of the bytes. -/
theorem outputIsolated_iff_mem (h : t ≠ a) (hg : s.CursorInGrid t) (c : Byte) :
    let m := strayPutc s.mem (pageBase t) (s.strayCell a) (s.screenX t) (s.screenY t) c
    OutputIsolated putcOnPage s a t c ↔
      (∀ i : Fin 4096, m (pageBase t + i.val)
          = pagePutc s.mem (pageBase t) (s.screenX t) (s.screenY t) c (pageBase t + i.val)) ∧
        (∀ u, u ≠ t → ∀ i : Fin 4096, m (pageBase u + i.val) = s.mem (pageBase u + i.val)) ∧
        ∀ i : ℕ, i < 4000 → m (video + i) = s.mem (video + i) := by
  intro m
  have heq := terminalPutc_of_ne h hg c
  have hmem : (terminalPutc a t s c).mem = m := by rw [heq]
  -- the cursor moves as it should in any case
  have hX : (terminalPutc a t s c).screenX
      = update s.screenX t (cursorPutc (s.screenX t) (s.screenY t) c).1 := by rw [heq]
  have hY : (terminalPutc a t s c).screenY
      = update s.screenY t (cursorPutc (s.screenX t) (s.screenY t) c).2 := by rw [heq]
  constructor
  · intro hiso
    refine ⟨?_, ?_, ?_⟩
    · intro i
      rw [← putcOnPage_page, ← hiso.page, Screen.page, hmem]
    · intro u hu i
      have hpage := congrFun (hiso.other u hu).1 i
      rw [Screen.page, hmem] at hpage
      exact hpage
    · intro i hi
      rw [← hmem]
      exact hiso.visible h i hi
  · intro h
    obtain ⟨hpage, hother, hvisible⟩ := h
    constructor
    · funext i
      rw [putcOnPage_page, ← hpage, Screen.page, hmem]
    · rw [hX]
      exact update_self t _ _
    · rw [hY]
      exact update_self t _ _
    · intro u hu
      refine ⟨?_, ?_, ?_⟩
      · funext i
        rw [Screen.page, hmem]
        exact hother u hu i
      · rw [hX]
        exact update_of_ne hu _ _
      · rw [hY]
        exact update_of_ne hu _ _
    · intro _ i hi
      rw [hmem]
      exact hvisible i hi

theorem eraseCount_le (hg : s.CursorInGrid t) (c : Byte) : s.eraseCount t c ≤ 80 := by
  have hx := hg.x
  rw [Screen.eraseCount]
  split_ifs <;> omega

/-- The cell that is erased, and the cells that should be, hold blanks where it matters. -/
theorem movedUp_eq_of_isolated {f : ℤ → Byte} {k n : ℤ} (hk : -1 ≤ k ∧ k < 1999) (hn : n ≤ 80)
    (hpage : ∀ i : Fin 4096, update f (pageBase t + 2 * k) (chr ' ') (pageBase t + i.val)
      = blankCells f (pageBase t) 1920 (1920 + n) (pageBase t + i.val))
    (hother : ∀ u, u ≠ t → ∀ i : Fin 4096,
      update f (pageBase t + 2 * k) (chr ' ') (pageBase u + i.val) = f (pageBase u + i.val))
    {j : ℤ} (hj : ¬ (1920 ≤ j ∧ j < 1920 + n ↔ j = k)) :
    j = -1 ∧ t = 0 ∨ f (pageBase t + 2 * j) = chr ' ' := by
  by_cases hjk : j = k
  · rcases Int.lt_or_le k 0 with hneg | hpos
    · by_cases ht : t = 0
      · exact .inl ⟨by omega, ht⟩
      · -- the last cell but 47 of the page before
        right
        have hval : t.val ≠ 0 := fun h => ht (Fin.ext h)
        have htlt : t.val < 3 := t.isLt
        let u : Term := ⟨t.val - 1, by show _ < 3; omega⟩
        have hu : u ≠ t := fun h => by
          have hv : t.val - 1 = t.val := congrArg Fin.val h
          omega
        have hb : pageBase u + ((4094 : Fin 4096).val : ℤ) = pageBase t + 2 * j := by
          have h1 := pageBase_eq u
          have h2 := pageBase_eq t
          have h3 : ((4094 : Fin 4096).val : ℤ) = 4094 := rfl
          have h4 : u.val = t.val - 1 := rfl
          omega
        have h := hother u hu 4094
        rw [hb, hjk, update_self] at h
        rw [hjk]
        exact h.symm
    · right
      have h := hpage ⟨(2 * k).toNat, by omega⟩
      have hi : (((2 * k).toNat : ℕ) : ℤ) = 2 * k := by omega
      simp only [hi, update_self] at h
      rw [blankCells, if_neg (by omega)] at h
      rw [hjk]
      exact h.symm
  · right
    have h := hpage ⟨(2 * j).toNat, by omega⟩
    have hi : (((2 * j).toNat : ℕ) : ℤ) = 2 * j := by omega
    simp only [hi] at h
    rw [update_of_ne (by omega), blankCells, if_pos (by omega)] at h
    exact h

/-- When they do, the backspaces in the wrong place make no difference. -/
theorem update_eq_blankCells {f : ℤ → Byte} {k n : ℤ} {t : Term}
    (hblank : ∀ j, ¬ (1920 ≤ j ∧ j < 1920 + n ↔ j = k) →
      j = -1 ∧ t = 0 ∨ f (pageBase t + 2 * j) = chr ' ') {i : ℤ} (hi : 0 ≤ i) :
    update f (pageBase t + 2 * k) (chr ' ') (pageBase t + i)
      = blankCells f (pageBase t) 1920 (1920 + n) (pageBase t + i) := by
  rw [update_apply, blankCells]
  split_ifs with hk hrange hrange
  · rfl
  · have hik : i = 2 * k := by omega
    rcases hblank k (by omega) with h | h
    · omega
    · rw [hik, h]
  · obtain ⟨j, rfl⟩ : ∃ j, i = 2 * j := ⟨i / 2, by omega⟩
    rcases hblank j (by omega) with h | h
    · omega
    · exact h
  · rfl

/-- **A character is isolated exactly if the backspaces of `scroll_up` are harmless.** -/
theorem outputIsolated_iff (hg : ∀ u, s.CursorInGrid u) (a t : Term) (c : Byte) :
    OutputIsolated putcOnPage s a t c ↔ BackspacesHarmless s a t c := by
  by_cases hta : t = a
  · subst hta
    exact iff_of_true (outputIsolated_self (hg t) c) (.inl rfl)
  have hx := (hg a).x
  have hy := (hg a).y
  have ht := pageBase_eq t
  have hk : -1 ≤ s.strayCell a ∧ s.strayCell a < 1999 := by
    rw [Screen.strayCell]
    omega
  apply Iff.trans (outputIsolated_iff_mem hta (hg t) c)
  -- nothing is erased
  by_cases hzero : s.eraseCount t c = 0
  · rw [strayPutc_of_eraseCount_eq_zero hzero]
    refine iff_of_true ⟨fun _ => rfl, ?_, ?_⟩ (.inr (.inl hzero))
    · intro u hu i
      apply pagePutc_of_outside (hg t).x (hg t).y
      have hfar := pageBase_far hu
      omega
    · intro i hi
      apply pagePutc_of_outside (hg t).x (hg t).y
      omega
  -- something is erased: by the cursor of the active terminal, in the page of `t`
  obtain ⟨f, hstray, hpage, hmoved, hout⟩ := exists_movedUp (hg t) hzero (s.strayCell a)
  have hn := eraseCount_le (hg t) c
  rw [hstray, hpage]
  constructor
  · intro h
    obtain ⟨hown, hother, _⟩ := h
    refine .inr (.inr ?_)
    intro j hj
    rw [← hmoved j (by omega)]
    apply movedUp_eq_of_isolated hk hn hown ?_ hj
    intro u hu i
    have hfar := pageBase_far hu
    rw [hother u hu i]
    exact (hout _ (by omega)).symm
  · intro hcond
    have hblank : ∀ j, ¬ (1920 ≤ j ∧ j < 1920 + s.eraseCount t c ↔ j = s.strayCell a) →
        j = -1 ∧ t = 0 ∨ f (pageBase t + 2 * j) = chr ' ' := by
      intro j hj
      rw [hmoved j (by omega)]
      exact (hcond.resolve_left hta).resolve_left hzero j hj
    refine ⟨?_, ?_, ?_⟩
    · intro i
      exact update_eq_blankCells hblank (by omega)
    · intro u hu i
      have hfar := pageBase_far hu
      have hbase := pageBase_eq u
      rw [← hout _ (by omega), update_apply]
      split_ifs with hb
      · -- the stray cell -1 of `t` is in the page before
        rcases hblank (s.strayCell a) (by omega) with h | h
        · have hz : t.val = 0 := congrArg Fin.val h.2
          omega
        · rw [hb, h]
      · rfl
    · intro i hi
      rw [update_of_ne (by omega)]
      exact hout _ (by omega)

/-! ## A scroll in the background -/

/-- Pages full of text, with terminal 1 at the second column of its last row. -/
def sampleScreen : Screen :=
  { bootScreen (fun _ => chr 'x') with
    screenX := fun t => if t = 1 then 1 else 5
    screenY := fun t => if t = 1 then 24 else 3 }

theorem sampleScreen_inGrid (t : Term) : sampleScreen.CursorInGrid t := by
  have hcursor : ∀ t : Term, (0 ≤ sampleScreen.screenX t ∧ sampleScreen.screenX t < 80) ∧
      0 ≤ sampleScreen.screenY t ∧ sampleScreen.screenY t < 25 := by decide
  exact ⟨(hcursor t).1, (hcursor t).2⟩

theorem outputIsolated_iff_sample :
    OutputIsolated putcOnPage sampleScreen 0 1 (chr '\n')
      ↔ BackspacesHarmless sampleScreen 0 1 (chr '\n') :=
  outputIsolated_iff sampleScreen_inGrid 0 1 (chr '\n')

/-- **No function of the page and the cursor is the effect of a character**: a newline on the last
row erases the text of that row on the active terminal, and not on another one. -/
theorem not_outputIsolated :
    ¬ ∃ F, ∀ (s : Screen) (a t : Term) (c : Byte), (∀ u, s.CursorInGrid u) →
      OutputIsolated F s a t c := by
  intro h
  obtain ⟨F, hF⟩ := h
  have hactive := (hF sampleScreen 1 1 (chr '\n') sampleScreen_inGrid).page
  have hbehind := (hF sampleScreen 0 1 (chr '\n') sampleScreen_inGrid).page
  have hsame : (terminalPutc 1 1 sampleScreen (chr '\n')).page 1 3840
      = (terminalPutc 0 1 sampleScreen (chr '\n')).page 1 3840 := by
    rw [hactive, hbehind]
  have herased : (terminalPutc 1 1 sampleScreen (chr '\n')).page 1 3840 = chr ' ' := by decide
  have hkept : (terminalPutc 0 1 sampleScreen (chr '\n')).page 1 3840 = chr 'x' := by decide
  rw [herased, hkept] at hsame
  exact absurd hsame (by decide)

end HieUnix
