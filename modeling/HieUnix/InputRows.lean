import HieUnix.LineEditing
import HieUnix.ScreenMirror

/-!
# The line buffers (`input_buffer`)

Each terminal has a row of 128 bytes for the line that is being typed, and the rows lie one behind
the other. The backspace key stores before it looks at the position: with nothing typed that is
the byte before the row, which is the last one of another terminal's row or outside the array. As
long as that does not happen a key touches nothing but the row of the active terminal, and every
row has its characters below the position and zero bytes behind them (`rowsFilled_of_safe`).

With each operation atomic the cursor stays in the grid, and there are always enough cells before
it for what has been typed, so that a backspace never leaves the screen (`cursor_of_reach`).
-/

namespace HieUnix

open Function

variable {m : Machine} {k : Kernel} {fr : Frame} {con con' : Console} {tty tty' : Tty}
  {c key : Byte} {t u : Term}

/-! ## Runs -/

/-- `clear_buffer`. -/
def clearBuffer (con : Console) (termnum : Term) : Console :=
  (con.setPos termnum 0).clearInput termnum

/-- An event of the terminals, or `clear_buffer`, which `halt` calls for the terminal of its
process. -/
inductive LineOp
  | tty (op : TtyOp)
  | clearBuffer (termnum : Term)

/-- When an event can happen. -/
def LineOp.Enabled (tty : Tty) : LineOp → Prop
  | .tty op => op.Enabled tty
  | .clearBuffer _ => True

/-- The effect of an event. -/
def LineOp.run (m : Machine) (tty : Tty) : LineOp → Tty
  | .tty op => op.run m tty
  | .clearBuffer termnum => { tty with con := HieUnix.clearBuffer tty.con termnum }

/-- The runs of the terminals with the programs that end. -/
def lineLTS (m : Machine) : LTS Tty LineOp where
  init tty := ∃ mem banner, tty = bootTty mem banner
  step tty op tty' := op.Enabled tty ∧ tty' = op.run m tty

/-! ## Accesses -/

/-- A loop over the row of a terminal. -/
def rowAccesses (t : Term) : List (Term × ℤ) :=
  (List.range maxBufferSize).map fun (i : ℕ) => (t, (i : ℤ))

/-- The bytes of `input_buffer` that `typeKey` reads or writes, as rows and indices. -/
def typeKeyAccesses (tty : Tty) (c key : Byte) : List (Term × ℤ) :=
  let t := tty.active
  if key = 0x08 then [(t, tty.con.currBuffPos t - 1)]
  else if key = chr '\n' ∨ key = chr '\r' then rowAccesses t
  else if (key = chr 'l' ∨ key = chr 'L') ∧ tty.mods.ctrlFlag then rowAccesses t
  else if ¬ fnKey c ∧ tty.con.currBuffPos t < maxBufferSize then
    if key ≠ 0 then [(t, tty.con.currBuffPos t)] else []
  else []

/-- The bytes of `input_buffer` that `do_handle_keyboard` reads or writes. -/
def keyAccesses (tty : Tty) (c : Byte) : List (Term × ℤ) :=
  if isBreak c then []
  else
    match switchKey (makeKey tty.mods c) c with
    | some _ => []
    | none => typeKeyAccesses (madeKey tty c) c (getKey tty.mods c)

/-- Where a byte of `input_buffer` is, counted from its start. -/
def rowOffset (x : Term × ℤ) : ℤ := maxBufferSize * x.1.val + x.2

theorem mem_rowAccesses {x : Term × ℤ} :
    x ∈ rowAccesses t ↔ x.1 = t ∧ 0 ≤ x.2 ∧ x.2 < maxBufferSize := by
  rw [rowAccesses, List.mem_map]
  constructor
  · rintro ⟨i, hi, rfl⟩
    have hlt := List.mem_range.mp hi
    exact ⟨rfl, by omega, by omega⟩
  · rintro ⟨rfl, h0, hlt⟩
    refine ⟨x.2.toNat, List.mem_range.mpr (by omega), ?_⟩
    ext
    · rfl
    · show (x.2.toNat : ℤ) = x.2
      omega

theorem setInput_apply_of_ne {i j : ℕ} {v : Byte}
    (h : rowOffset (t, j) ≠ rowOffset (u, i)) :
    (con.setInput t j v).inputBuffer u i = con.inputBuffer u i := by
  show update con.inputBuffer t (update (con.inputBuffer t) j v) u i = _
  by_cases hu : u = t
  · subst hu
    rw [update_self, update_of_ne]
    rintro rfl
    exact h rfl
  · rw [update_of_ne hu]

theorem val_pred_of_ne_zero : ∀ t : Term, t ≠ 0 → (t - 1).val + 1 = t.val := by decide

/-- The store of the backspace key, also before the row. -/
theorem eraseInput_apply_of_ne {i : ℕ}
    (h : rowOffset (t, con.currBuffPos t - 1) ≠ rowOffset (u, i)) :
    (con.eraseInput t).inputBuffer u i = con.inputBuffer u i := by
  rw [Console.eraseInput]
  split_ifs with hpos ht
  · apply setInput_apply_of_ne
    rw [Int.natCast_sub (by omega)]
    exact h
  · apply setInput_apply_of_ne
    have hval := val_pred_of_ne_zero t ht
    rw [not_not.mp hpos] at h
    have hne : 128 * (t.val : ℤ) + ((0 : ℕ) - 1) ≠ 128 * u.val + i := h
    show 128 * ((t - 1).val : ℤ) + (127 : ℕ) ≠ 128 * u.val + i
    omega
  · rfl

theorem clearInput_apply_of_ne {i : ℕ} (h : u ≠ t) :
    (con.clearInput t).inputBuffer u i = con.inputBuffer u i := by
  show update con.inputBuffer t (fun _ => 0) u i = _
  rw [update_of_ne h]

/-- A byte of the rows that is in no row that is cleared. -/
theorem ne_of_not_mem_rowAccesses {i : ℕ} (hi : i < maxBufferSize)
    (h : ∀ x ∈ rowAccesses t, rowOffset x ≠ rowOffset (u, i)) : u ≠ t := by
  rintro rfl
  exact h (u, i) (mem_rowAccesses.mpr ⟨rfl, Int.natCast_nonneg i, Int.ofNat_lt.mpr hi⟩) rfl

/-- **What a key does not access it does not change.** -/
theorem typeKey_inputBuffer {i : ℕ} (hi : i < maxBufferSize)
    (h : ∀ x ∈ typeKeyAccesses tty c key, rowOffset x ≠ rowOffset (u, i)) :
    (typeKey tty c key).con.inputBuffer u i = tty.con.inputBuffer u i := by
  rw [typeKeyAccesses] at h
  rw [typeKey]
  split_ifs at h ⊢
  · have herase := eraseInput_apply_of_ne (h _ (List.mem_singleton_self _))
    rw [backspaceKey]
    split_ifs
    · exact herase
    · exact herase
  · exact clearInput_apply_of_ne (ne_of_not_mem_rowAccesses hi h)
  · exact clearInput_apply_of_ne (ne_of_not_mem_rowAccesses hi h)
  · exact setInput_apply_of_ne (h _ (List.mem_singleton_self _))
  · rfl
  · rfl

theorem typeKey_currBuffPos (tty : Tty) (c key : Byte) (h : u ≠ tty.active) :
    (typeKey tty c key).con.currBuffPos u = tty.con.currBuffPos u := by
  rcases typeKey_cases tty c key with hno | ⟨-, hback⟩ | ⟨-, henter⟩ | hclear | ⟨-, -, -, hchar⟩
  · rw [hno]
  · rw [hback]
    by_cases hpos : tty.con.currBuffPos tty.active = 0
    · rw [backspaceKey_of_eq_zero hpos]
      exact congrFun (eraseInput_currBuffPos tty.con tty.active) u
    · rw [backspaceKey_of_ne_zero hpos]
      exact update_of_ne h _ _
  · rw [henter]
    exact update_of_ne h _ _
  · rw [hclear]
    exact update_of_ne h _ _
  · rw [hchar]
    exact update_of_ne h _ _

/-! ## A key -/

/-- A key, whatever it does in `do_handle_keyboard`, keeps to the row of the active terminal: its
accesses are to bytes of that row, and the rows and positions of the other terminals stay. -/
structure KeepsRows (m : Machine) (k : Kernel) (fr : Frame) (tty : Tty) (c : Byte) : Prop where
  accesses : ∀ x ∈ keyAccesses tty c, x.1 = tty.active ∧ 0 ≤ x.2 ∧ x.2 < maxBufferSize
  rows : ∀ u, u ≠ tty.active → ∀ i < maxBufferSize,
    (doHandleKeyboard m k fr tty c).2.2.con.inputBuffer u i = tty.con.inputBuffer u i
  pos : ∀ u, u ≠ tty.active →
    (doHandleKeyboard m k fr tty c).2.2.con.currBuffPos u = tty.con.currBuffPos u

/-- A backspace with nothing typed. -/
def EmptyBackspace (tty : Tty) (c : Byte) : Prop :=
  isBreak c = false ∧ getKey tty.mods c = 0x08 ∧ tty.con.currBuffPos tty.active = 0

/-- A key that is not Alt with a function key is an edit, or changes a flag. -/
theorem doHandleKeyboard_con (m : Machine) (k : Kernel) (fr : Frame)
    (hswitch : switchKey (makeKey tty.mods c) c = none) :
    (doHandleKeyboard m k fr tty c).2.2.con
      = if isBreak c then tty.con else (typeKey (madeKey tty c) c (getKey tty.mods c)).con := by
  rcases doHandleKeyboard_cases m k fr tty c with
    ⟨hbreak, h⟩ | ⟨hmake, -, h⟩ | ⟨-, newNum, hsome, -⟩
  · rw [h, hbreak]
    rfl
  · rw [h, hmake]
    rfl
  · rw [hswitch] at hsome
    cases hsome

theorem mem_keyAccesses (hswitch : switchKey (makeKey tty.mods c) c = none) {x : Term × ℤ} :
    x ∈ keyAccesses tty c ↔
      isBreak c = false ∧ x ∈ typeKeyAccesses (madeKey tty c) c (getKey tty.mods c) := by
  rw [keyAccesses, hswitch]
  cases isBreak c with
  | true => simp
  | false => simp

/-- The accesses of a key are to the row of the active terminal, except for one. -/
theorem typeKeyAccesses_inRow (h : ¬ (key = 0x08 ∧ tty.con.currBuffPos tty.active = 0))
    (hle : tty.con.currBuffPos tty.active ≤ maxBufferSize) {x : Term × ℤ}
    (hx : x ∈ typeKeyAccesses tty c key) :
    x.1 = tty.active ∧ 0 ≤ x.2 ∧ x.2 < maxBufferSize := by
  rw [typeKeyAccesses] at hx
  split_ifs at hx with hback henter hclear hchar hkey
  · have hpos : tty.con.currBuffPos tty.active ≠ 0 := fun h0 => h ⟨hback, h0⟩
    obtain rfl := List.mem_singleton.mp hx
    exact ⟨rfl, by dsimp only; omega, by dsimp only; omega⟩
  · exact mem_rowAccesses.mp hx
  · exact mem_rowAccesses.mp hx
  · obtain rfl := List.mem_singleton.mp hx
    exact ⟨rfl, Int.natCast_nonneg _, Int.ofNat_lt.mpr hchar.2⟩
  · cases hx
  · cases hx

/-- **A key keeps to the row of the active terminal** unless it is a backspace with nothing
typed. -/
theorem keepsRows_iff (m : Machine) (k : Kernel) (fr : Frame)
    (hle : tty.con.currBuffPos tty.active ≤ maxBufferSize)
    (hswitch : switchKey (makeKey tty.mods c) c = none) :
    KeepsRows m k fr tty c ↔ ¬ EmptyBackspace tty c := by
  constructor
  · rintro h ⟨hmake, hback, hpos⟩
    -- the bad backspace stores at index -1
    have hmem : (tty.active, (-1 : ℤ)) ∈ keyAccesses tty c := by
      rw [mem_keyAccesses hswitch, typeKeyAccesses, if_pos hback]
      refine ⟨hmake, ?_⟩
      show (tty.active, (-1 : ℤ)) ∈ [(tty.active, ((tty.con.currBuffPos tty.active : ℕ) : ℤ) - 1)]
      rw [hpos]
      exact List.mem_singleton_self _
    have hneg := (h.accesses _ hmem).2.1
    dsimp only at hneg
    omega
  · intro h
    -- any other key has its accesses in the row of the active terminal
    have haccesses : ∀ x ∈ keyAccesses tty c,
        x.1 = tty.active ∧ 0 ≤ x.2 ∧ x.2 < maxBufferSize := by
      intro x hx
      obtain ⟨hmake, hx⟩ := (mem_keyAccesses hswitch).mp hx
      have hsafe : ¬ (getKey tty.mods c = 0x08 ∧
          (madeKey tty c).con.currBuffPos (madeKey tty c).active = 0) := by
        rintro ⟨hback, hpos⟩
        exact h ⟨hmake, hback, hpos⟩
      exact typeKeyAccesses_inRow hsafe hle hx
    refine ⟨haccesses, ?_, ?_⟩
    · intro u hu i hi
      rw [doHandleKeyboard_con m k fr hswitch]
      cases hbreak : isBreak c with
      | true => rfl
      | false =>
        show (typeKey (madeKey tty c) c _).con.inputBuffer u i = (madeKey tty c).con.inputBuffer u i
        apply typeKey_inputBuffer hi
        intro x hx heq
        obtain ⟨hrow, h0, hlt⟩ := haccesses x ((mem_keyAccesses hswitch).mpr ⟨hbreak, hx⟩)
        have hval : x.1.val ≠ u.val := by
          rw [hrow]
          exact fun h => hu (Fin.ext h.symm)
        -- rows are 128 bytes apart
        have heq' : 128 * (x.1.val : ℤ) + x.2 = 128 * u.val + i := heq
        have hlt' : x.2 < 128 := hlt
        have hi' : i < 128 := hi
        omega
    · intro u hu
      rw [doHandleKeyboard_con m k fr hswitch]
      cases isBreak c with
      | true => rfl
      | false => exact typeKey_currBuffPos (madeKey tty c) c _ hu

/-! ## The rows in a run -/

/-- The row of a terminal has its characters below the position, and zero bytes from there on. -/
def Console.RowFilled (con : Console) (t : Term) : Prop :=
  con.currBuffPos t ≤ maxBufferSize ∧
    ∀ i < maxBufferSize, con.inputBuffer t i ≠ 0 ↔ i < con.currBuffPos t

theorem Console.RowFilled.of_row (h : con.RowFilled t)
    (hpos : con'.currBuffPos t = con.currBuffPos t)
    (hrow : ∀ i < maxBufferSize, con'.inputBuffer t i = con.inputBuffer t i) :
    con'.RowFilled t := by
  rw [Console.RowFilled, hpos]
  refine ⟨h.1, ?_⟩
  intro i hi
  rw [hrow i hi]
  exact h.2 i hi

/-- A row is filled when it holds a line. -/
theorem rowFilled_iff : con.RowFilled t ↔ ∃ line, LineIs con t line := by
  constructor
  · rintro ⟨hle, hfilled⟩
    have hlen : ((List.range (con.currBuffPos t)).map (con.inputBuffer t)).length
        = con.currBuffPos t := by
      rw [List.length_map, List.length_range]
    refine ⟨(List.range (con.currBuffPos t)).map (con.inputBuffer t), hlen.symm, ?_, ?_, ?_⟩
    · rw [hlen]
      exact hle
    · intro i hi
      by_cases hlt : i < con.currBuffPos t
      · rw [List.getD_eq_getElem _ _ (by rw [hlen]; exact hlt), List.getElem_map,
          List.getElem_range]
      · rw [List.getD_eq_default _ _ (by rw [hlen]; omega)]
        exact not_not.mp fun hne => hlt ((hfilled i hi).mp hne)
    · intro b hb
      obtain ⟨i, hi, rfl⟩ := List.mem_map.mp hb
      have hlt := List.mem_range.mp hi
      exact (hfilled i (Nat.lt_of_lt_of_le hlt hle)).mpr hlt
  · rintro ⟨line, h⟩
    refine ⟨h.pos ▸ h.length_le, ?_⟩
    intro i hi
    rw [h.byte i hi, h.pos]
    constructor
    · intro hne
      by_contra hge
      exact hne (List.getD_eq_default _ _ (Nat.le_of_not_lt hge))
    · intro hlt
      rw [List.getD_eq_getElem _ _ hlt]
      exact h.ne_zero _ (List.getElem_mem hlt)

/-- Every row is filled. -/
def RowsFilled (con : Console) : Prop := ∀ t, con.RowFilled t

/-- No backspace with nothing typed. -/
def BackspaceSafe (tty : Tty) : LineOp → Prop
  | .tty (.key _ _ c) => ¬ EmptyBackspace tty c
  | _ => True

theorem RowsFilled.congr (h : RowsFilled con) (hpos : con'.currBuffPos = con.currBuffPos)
    (hrow : con'.inputBuffer = con.inputBuffer) : RowsFilled con' := by
  intro t
  apply (h t).of_row
  · rw [hpos]
  · intro i _
    rw [hrow]

/-- A row that is cleared with its position is filled, and the others stay. -/
theorem RowsFilled.clear (h : RowsFilled con)
    (hpos : con'.currBuffPos = update con.currBuffPos t 0)
    (hrow : con'.inputBuffer = update con.inputBuffer t fun _ => 0) : RowsFilled con' := by
  intro u
  by_cases hu : u = t
  · subst hu
    rw [Console.RowFilled, hpos, hrow, update_self, update_self]
    refine ⟨Nat.zero_le _, fun i _ => iff_of_false ?_ (Nat.not_lt_zero i)⟩
    exact not_not_intro rfl
  · apply (h u).of_row
    · rw [hpos, update_of_ne hu]
    · intro i _
      rw [hrow, update_of_ne hu]

/-- A key that is typed leaves the row of the active terminal filled. -/
theorem rowFilled_typeKey (h : RowsFilled tty.con) (hmake : isBreak c = false)
    (mods : Modifiers) :
    (typeKey tty c (getKey mods c)).con.RowFilled tty.active := by
  cases hline : isNewline (getKey mods c) with
  | true =>
    rw [typeKey_of_newline tty c hline]
    apply rowFilled_iff.mpr
    exact ⟨[], LineIs.clearInput _ _⟩
  | false =>
    obtain ⟨line, hline'⟩ := rowFilled_iff.mp (h tty.active)
    apply rowFilled_iff.mpr
    exact ⟨_, hline'.typeKey hmake hline⟩

/-- **A key keeps the rows filled** unless it is a backspace with nothing typed. -/
theorem RowsFilled.doHandleKeyboard (h : RowsFilled tty.con) (m : Machine) (k : Kernel)
    (fr : Frame) (hsafe : ¬ EmptyBackspace tty c) :
    RowsFilled (doHandleKeyboard m k fr tty c).2.2.con := by
  cases hswitch : switchKey (makeKey tty.mods c) c with
  | some newNum =>
    have hchange := changeScreen_line k (acknowledge (madeKey tty c) kbIrqLine) newNum
    rcases doHandleKeyboard_cases m k fr tty c with ⟨-, hcase⟩ | ⟨-, hnone, -⟩ |
      ⟨-, newNum', hsome, hcase⟩
    · rw [hcase]
      exact h
    · rw [hswitch] at hnone
      cases hnone
    · obtain rfl : newNum = newNum' := Option.some.inj (hswitch.symm.trans hsome)
      rcases hcase with hcase | hcase
      · rw [hcase]
        exact h.congr hchange.1 hchange.2.1
      · rw [hcase]
        exact h.congr hchange.1 hchange.2.1
  | none =>
    have hkeeps := (keepsRows_iff m k fr (h tty.active).1 hswitch).mpr hsafe
    intro u
    by_cases hu : u = tty.active
    · subst hu
      rw [doHandleKeyboard_con m k fr hswitch]
      cases hbreak : isBreak c with
      | true => exact h _
      | false =>
        have hmade : RowsFilled (madeKey tty c).con := h
        exact rowFilled_typeKey hmade hbreak tty.mods
    · exact (h u).of_row (hkeeps.pos u hu) (hkeeps.rows u hu)

/-- **One event** keeps the rows filled. -/
theorem RowsFilled.run {op : LineOp} (h : RowsFilled tty.con) (m : Machine)
    (hsafe : BackspaceSafe tty op) : RowsFilled (op.run m tty).con := by
  match op with
  | .clearBuffer t => exact h.clear rfl rfl
  | .tty (.key k fr c) => exact h.doHandleKeyboard m k fr hsafe
  | .tty .afterSwitch => exact h
  | .tty (.putc t c) => exact h
  | .tty (.read t mem buf nbytes) =>
    show RowsFilled (terminalRead tty.con t mem buf nbytes).2.1
    by_cases hbuf : buf = 0
    · rw [terminalRead, if_pos hbuf]
      exact h
    · by_cases hmouse : tty.con.MousePending
      · rw [terminalRead_of_mouse hbuf hmouse]
        exact h.clear rfl rfl
      · rw [terminalRead_con hmouse, if_neg hbuf]
        exact h.congr rfl rfl
  | .tty (.click newPos) => exact h

/-- One event keeps the screen in line with the active terminal, and the room before the cursors. -/
theorem Mirrored.lineRun (h : Mirrored tty) (m : Machine) (op : LineOp) :
    Mirrored (op.run m tty) := by
  cases op with
  | tty op => exact h.run m op
  | clearBuffer t =>
    apply Mirrors.mono h
    intro u
    show update tty.con.currBuffPos t 0 u ≤ tty.con.currBuffPos u
    rw [update_apply]
    split_ifs
    · exact Nat.zero_le _
    · exact Nat.le_refl _

theorem mirrored_of_line (h : (lineLTS m).Reach LTS.always tty) : Mirrored tty := by
  apply h.invariant
  · rintro tty ⟨mem, banner, rfl⟩
    exact mirrored_boot mem banner
  · rintro tty op tty' htty - ⟨-, rfl⟩
    exact htty.lineRun m op

/-- **Keyboard edits touch only the active terminal's line.** In every run a key other than Alt with
a function key keeps to the row of the active terminal, unless it is a backspace where nothing has
been typed; and in every run without such a backspace each row has its characters exactly below the
position. -/
theorem rowsFilled_of_safe (m : Machine) :
    (∀ tty, (lineLTS m).Reach LTS.always tty → ∀ k fr c, k.currentActiveTerminal = tty.active →
      switchKey (makeKey tty.mods c) c = none →
        (KeepsRows m k fr tty c ↔ ¬ EmptyBackspace tty c)) ∧
    ∀ tty, (lineLTS m).Reach BackspaceSafe tty → ∀ t, tty.con.RowFilled t := by
  constructor
  · intro tty h k fr c _ hswitch
    exact keepsRows_iff m k fr ((mirrored_of_line h).pos_le _) hswitch
  · intro tty h
    apply h.invariant (I := fun tty => RowsFilled tty.con)
    · rintro tty ⟨mem, banner, rfl⟩ t
      refine ⟨Nat.zero_le _, fun i _ => iff_of_false ?_ (Nat.not_lt_zero i)⟩
      exact not_not_intro rfl
    · rintro tty op tty' hfilled hsafe ⟨-, rfl⟩
      exact hfilled.run m hsafe

/-- The terminals at boot. -/
def sampleTty : Tty := bootTty (fun _ => 0) []

theorem sampleTty_reach : (lineLTS m).Reach LTS.always sampleTty := .init ⟨fun _ => 0, [], rfl⟩

/-- The backspace key at boot stores before the rows. -/
theorem not_keepsRows_sampleTty :
    ∃ tty k fr c, (lineLTS sampleMachine).Reach LTS.always tty ∧
      k.currentActiveTerminal = tty.active ∧ switchKey (makeKey tty.mods c) c = none ∧
      ¬ KeepsRows sampleMachine k fr tty c := by
  refine ⟨sampleTty, sampleBoot, Frame.top 0, 14, sampleTty_reach, rfl, rfl, ?_⟩
  rw [keepsRows_iff _ _ _ (Nat.zero_le _) rfl]
  exact not_not_intro ⟨by decide, by decide, rfl⟩

/-! ## The cursor in a run -/

/-- Every cursor is in the grid, with at least as many cells before it as there are characters in
the line of its terminal. -/
structure CursorsFit (tty : Tty) : Prop where
  x : ∀ t, 0 ≤ tty.scr.screenX t ∧ tty.scr.screenX t < 80
  y : ∀ t, 0 ≤ tty.scr.screenY t ∧ tty.scr.screenY t < 25
  room : ∀ t, (tty.con.currBuffPos t : ℤ) ≤ 80 * tty.scr.screenY t + tty.scr.screenX t

/-- The active terminal's cell before the cursor is one of the grid, and a blank after the step to
`tty'`, in the video memory and in the backup page; the cursor has gone back to it. No other
character has changed. -/
structure ErasesLast (tty tty' : Tty) : Prop where
  cell : 0 ≤ tty.scr.strayCell tty.active ∧ tty.scr.strayCell tty.active < 2000
  x : tty'.scr.screenX tty.active = tty.scr.strayCell tty.active % 80
  y : tty'.scr.screenY tty.active = tty.scr.strayCell tty.active / 80
  chars : ∀ base ∈ [video, pageBase tty.active], ∀ i : ℕ, i < 2000 →
    tty'.scr.mem (base + 2 * i)
      = if (i : ℤ) = tty.scr.strayCell tty.active then chr ' ' else tty.scr.mem (base + 2 * i)

/-- The backspace key in `do_handle_keyboard`. -/
theorem doHandleKeyboard_backspace (m : Machine) (k : Kernel) (fr : Frame)
    (hmake : isBreak c = false) (hback : getKey tty.mods c = 0x08) :
    (doHandleKeyboard m k fr tty c).2.2 = acknowledge (backspaceKey (madeKey tty c)) kbIrqLine := by
  rcases doHandleKeyboard_cases m k fr tty c with
    ⟨hbreak, -⟩ | ⟨-, -, htype⟩ | ⟨-, newNum, hsome, -⟩
  · rw [hmake] at hbreak
    cases hbreak
  · rw [htype, typeKey, if_pos hback]
  · rw [switchKey] at hsome
    split_ifs at hsome
    rw [getKey_of_fnTerminal hsome] at hback
    cases hback

/-- `put_backspace` where there is a cell before the cursor. -/
theorem erasesLast_putBackspace
    (hx : 0 ≤ tty.scr.screenX tty.active ∧ tty.scr.screenX tty.active < 80)
    (hy : 0 ≤ tty.scr.screenY tty.active ∧ tty.scr.screenY tty.active < 25)
    (hroom : 1 ≤ 80 * tty.scr.screenY tty.active + tty.scr.screenX tty.active)
    (hscr : tty'.scr = putBackspace tty.active tty.active tty.scr) : ErasesLast tty tty' := by
  have hpage := pageBase_eq tty.active
  have hstray : tty.scr.strayCell tty.active
      = 80 * tty.scr.screenY tty.active + tty.scr.screenX tty.active - 1 := rfl
  have hself := putBackspace_self (s := tty.scr) (a := tty.active) hx.1
  refine ⟨by omega, ?_, ?_, ?_⟩
  · rw [hscr, hself]
    dsimp only
    rw [update_self]
    split_ifs <;> omega
  · rw [hscr, hself]
    dsimp only
    rw [update_self]
    split_ifs <;> omega
  · intro base hbase i hi
    have hcases : base = video ∨ base = pageBase tty.active := by simpa using hbase
    rw [hscr, hself]
    dsimp only
    rw [update_apply, update_apply]
    split_ifs <;> first | rfl | omega

/-- The pointer is no part of the text. -/
theorem ErasesLast.congr {tty₁ : Tty} (h : ErasesLast tty₁ tty')
    (hactive : tty₁.active = tty.active) (hsame : tty₁.scr.SameText tty.scr) :
    ErasesLast tty tty' := by
  have hstray : tty₁.scr.strayCell tty₁.active = tty.scr.strayCell tty.active := by
    rw [Screen.strayCell, Screen.strayCell, hsame.screenX, hsame.screenY, hactive]
  obtain ⟨hcell, hx, hy, hchars⟩ := h
  rw [hstray] at hcell hx hy
  rw [hactive] at hx hy
  refine ⟨hcell, hx, hy, ?_⟩
  intro base hbase i hi
  have hplace : NotAttribute (base + 2 * i) := by
    have hcases : base = video ∨ base = pageBase tty.active := by simpa using hbase
    rcases hcases with rfl | rfl
    · exact notAttribute_video i
    · exact notAttribute_page tty.active i
  rw [← hsame.mem _ hplace, ← hstray]
  rw [← hactive] at hbase
  exact hchars base hbase i hi

/-- **The cursor stays in the grid, and a backspace on the screen.** In every run, after each event,
every cursor is in the grid with the cells of the typed line before it. The backspace key then
erases the cell before the cursor, one of the grid, and goes back to it, or nothing when nothing has
been typed. -/
theorem cursor_of_reach (h : (lineLTS m).Reach LTS.always tty) :
    CursorsFit tty ∧ ∀ k fr c, k.currentActiveTerminal = tty.active → isBreak c = false →
      getKey tty.mods c = 0x08 →
        let tty' := (doHandleKeyboard m k fr tty c).2.2
        (tty.con.currBuffPos tty.active ≠ 0 → ErasesLast tty tty') ∧
          (tty.con.currBuffPos tty.active = 0 → tty'.scr.SameText tty.scr) := by
  have hmirror : Mirrors tty.scr tty.active tty.con.currBuffPos := mirrored_of_line h
  refine ⟨⟨fun t => (hmirror.cursor t).x, fun t => (hmirror.cursor t).y, hmirror.room⟩, ?_⟩
  intro k fr c _ hmake hback tty'
  have htty' : tty' = acknowledge (backspaceKey (madeKey tty c)) kbIrqLine :=
    doHandleKeyboard_backspace m k fr hmake hback
  have hbefore := sameText_beforeKey tty
  have hx := (hmirror.cursor tty.active).x
  have hy := (hmirror.cursor tty.active).y
  have hroom := hmirror.room tty.active
  constructor
  · intro hpos
    have hpos' : (madeKey tty c).con.currBuffPos (madeKey tty c).active ≠ 0 := hpos
    suffices herase : ErasesLast (madeKey tty c) tty' from herase.congr rfl hbefore
    apply erasesLast_putBackspace
    · show 0 ≤ (beforeKey tty).scr.screenX tty.active ∧ (beforeKey tty).scr.screenX tty.active < 80
      rw [hbefore.screenX]
      exact hx
    · show 0 ≤ (beforeKey tty).scr.screenY tty.active ∧ (beforeKey tty).scr.screenY tty.active < 25
      rw [hbefore.screenY]
      exact hy
    · show 1 ≤ 80 * (beforeKey tty).scr.screenY tty.active + (beforeKey tty).scr.screenX tty.active
      rw [hbefore.screenX, hbefore.screenY]
      omega
    · rw [htty', backspaceKey_of_ne_zero hpos']
      rfl
  · intro hpos
    have hpos' : (madeKey tty c).con.currBuffPos (madeKey tty c).active = 0 := hpos
    rw [htty', backspaceKey_of_eq_zero hpos']
    exact hbefore

/-! ## Typing and output on two terminals -/

/-- A is typed on terminal 0 and its shell prints a character; after Alt-F2 B is typed on terminal 1
while the shell of terminal 0 begins a new line, and that of terminal 1 prints a character. -/
def sampleLineOps : List LineOp :=
  [.tty (.key (sampleTables 0) (Frame.top 0) 30), .tty (.putc 0 (chr 'x')),
    .tty (.key (sampleTables 0) (Frame.top 0) 56), .tty (.key (sampleTables 0) (Frame.top 0) 60),
    .tty (.key (sampleTables 1) (Frame.top 0) 48), .tty (.putc 0 (chr '\n')),
    .tty (.putc 1 (chr 'y'))]

/-- The terminals after it. -/
def sampleWritten : Tty := sampleLineOps.foldl (fun tty op => op.run sampleMachine tty) sampleTty

theorem sampleWritten_reach : (lineLTS sampleMachine).Reach BackspaceSafe sampleWritten := by
  have hstep : ∀ {tty : Tty} (op : LineOp), (lineLTS sampleMachine).Reach BackspaceSafe tty →
      op.Enabled tty → BackspaceSafe tty op →
      (lineLTS sampleMachine).Reach BackspaceSafe (op.run sampleMachine tty) :=
    fun op h henabled hsafe => .step h hsafe ⟨henabled, rfl⟩
  have h0 : (lineLTS sampleMachine).Reach BackspaceSafe sampleTty := .init ⟨fun _ => 0, [], rfl⟩
  have h1 := hstep (.tty (.key (sampleTables 0) (Frame.top 0) 30)) h0 rfl fun h =>
    absurd h.2.1 (by decide)
  have h2 := hstep (.tty (.putc 0 (chr 'x'))) h1 trivial trivial
  have h3 := hstep (.tty (.key (sampleTables 0) (Frame.top 0) 56)) h2 rfl fun h =>
    absurd h.2.1 (by decide)
  have h4 := hstep (.tty (.key (sampleTables 0) (Frame.top 0) 60)) h3 rfl fun h =>
    absurd h.2.1 (by decide)
  have h5 := hstep (.tty (.key (sampleTables 1) (Frame.top 0) 48)) h4 rfl fun h =>
    absurd h.2.1 (by decide)
  have h6 := hstep (.tty (.putc 0 (chr '\n'))) h5 trivial trivial
  exact hstep (.tty (.putc 1 (chr 'y'))) h6 trivial trivial

/-- Both lines are in their rows. -/
theorem rowsFilled_of_safe_sample : sampleWritten.con.RowFilled 0 ∧
    sampleWritten.con.RowFilled 1 ∧ sampleWritten.con.currBuffPos 0 = 1 ∧
    sampleWritten.con.currBuffPos 1 = 1 :=
  ⟨(rowsFilled_of_safe sampleMachine).2 _ sampleWritten_reach 0,
    (rowsFilled_of_safe sampleMachine).2 _ sampleWritten_reach 1, by decide, by decide⟩

/-- The cursor of terminal 1 is behind two characters, and the backspace key erases the second. -/
theorem cursor_of_reach_sample : CursorsFit sampleWritten ∧ sampleWritten.active = 1 ∧
    sampleWritten.scr.screenX 1 = 2 ∧ sampleWritten.scr.screenY 0 = 1 ∧
    ErasesLast sampleWritten
      (doHandleKeyboard sampleMachine (sampleTables 1) (Frame.top 0) sampleWritten 14).2.2 := by
  obtain ⟨hfit, hback⟩ := cursor_of_reach
    (sampleWritten_reach.mono fun _ _ _ _ => trivial)
  refine ⟨hfit, by decide, by decide +kernel, by decide +kernel, ?_⟩
  exact (hback (sampleTables 1) (Frame.top 0) 14 rfl rfl (by decide)).1 (by decide)

end HieUnix
