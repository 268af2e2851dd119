import HieUnix.Mouse

/-!
# Interrupt masks

`send_eoi` masks the line it is sent for, so that every handler has to end with `enable_irq`. The
handlers of the timer, the keyboard, the mouse and the clock do, and so do the calls of `rtc.c`
except `rtc_write`, which returns from a bad frequency with its line disabled. In every run whose
frequencies are good the masks stay those of `entry` (`pic_of_reach`).
-/

namespace HieUnix

open Function

/-! ## Handlers -/

/-- What the handlers and the calls of `rtc.c` change: the terminals with the interrupt masks, the
registers of the clock, and its flag. -/
structure Devs where
  tty : Tty
  regA : Byte
  regB : Byte
  intOccured : Bool

namespace Devs

/-- The clock, with the interrupt masks. -/
def rtc (s : Devs) : Rtc := ⟨s.regA, s.regB, s.intOccured, s.tty.pic⟩

/-- The devices with the clock changed. -/
def setRtc (s : Devs) (rtc : Rtc) : Devs :=
  ⟨{ s.tty with pic := rtc.pic }, rtc.regA, rtc.regB, rtc.intOccured⟩

/-- The devices with the masks changed. -/
def setPic (s : Devs) (pic : Pic) : Devs := { s with tty := { s.tty with pic := pic } }

end Devs

/-- The line of the timer. -/
abbrev pitIrqLine : ℕ := 0

/-- What the process that is switched to does first: in `execute` after `ret_here`, or at the end of
its own `do_handle_pit`. -/
def continuePic (pic : Pic) : Label → Pic
  | .retHere => enableIrq (sendEoi pic pitIrqLine) pitIrqLine
  | .switched => enableIrq (sendEoi pic pitIrqLine) pitIrqLine

/-- The masks after `do_handle_pit` and the end of the handler that is resumed, which is the same
one when no program runs. -/
def doHandlePitPic (m : Machine) (k : Kernel) (fr : Frame) (pic : Pic) : Option Pic :=
  let pic := disableIrq pic pitIrqLine
  match doHandlePit m k fr with
  | some (.jump _ _ eip, _) => some (continuePic pic eip)
  | some (_, _) => some (enableIrq (sendEoi pic pitIrqLine) pitIrqLine)
  | none => none

/-- `do_handle_rtc`. -/
def doHandleRtc (rtc : Rtc) : Rtc :=
  let rtc := { rtc with pic := disableIrq rtc.pic rtcIrqLine }
  let rtc := { rtc with intOccured := false }
  { rtc with pic := enableIrq (sendEoi rtc.pic rtcIrqLine) rtcIrqLine }

/-- `rtc_read` before its loop. -/
def rtcReadStart (rtc : Rtc) : Rtc := { rtc with intOccured := true }

/-- `rtc_open`, with the check of its pointer. -/
def rtcOpenFd (fd : Option Fd) (rtc : Rtc) : Rtc :=
  match fd with
  | none => rtc
  | some fd => (rtcOpen fd rtc).2.2

/-! ## Runs -/

/-- A run of a handler, or a call of `rtc.c`. The process tables are those at that moment. -/
inductive IrqOp
  | pit (k : Kernel) (fr : Frame)
  | keyboard (k : Kernel) (fr : Frame) (c : Byte)
  | afterSwitch
  | mouse (data : Byte)
  | rtc
  | rtcOpen (fd : Option Fd)
  | rtcRead
  | rtcWrite (mem : Memory) (buf : Word)

/-- The devices after a handler or a call. -/
def IrqOp.run (m : Machine) (s : Devs) : IrqOp → Option Devs
  | .pit k fr => (doHandlePitPic m k fr s.tty.pic).map s.setPic
  | .keyboard k fr c => some { s with tty := (doHandleKeyboard m k fr s.tty c).2.2 }
  | .afterSwitch => some { s with tty := HieUnix.afterSwitch s.tty }
  | .mouse data => some { s with tty := doHandleMouse s.tty data }
  | .rtc => some (s.setRtc (doHandleRtc s.rtc))
  | .rtcOpen fd => some (s.setRtc (rtcOpenFd fd s.rtc))
  | .rtcRead => some (s.setRtc (rtcReadStart s.rtc))
  | .rtcWrite mem buf => some (s.setRtc (HieUnix.rtcWrite s.rtc mem buf).2)

/-- The runs of the devices from the end of `entry` on. -/
def irqLTS (m : Machine) : LTS Devs IrqOp where
  init s := ∃ mem banner, s.tty = bootTty mem banner
  step s op s' := op.run m s = some s'

/-- Whether a line is masked. -/
def Pic.masked (pic : Pic) (line : ℕ) : Bool :=
  if line < 8 then pic.masterMask.getLsbD line else pic.slaveMask.getLsbD (line - 8)

/-- Exactly the lines 0, 1, 2, 8 and 12 are unmasked, and the mask registers hold the masks. -/
structure LinesOpen (pic : Pic) : Prop where
  lines : ∀ line < 16, pic.masked line = false ↔
    line = 0 ∨ line = 1 ∨ line = 2 ∨ line = 8 ∨ line = 12
  masterImr : pic.masterImr = pic.masterMask
  slaveImr : pic.slaveImr = pic.slaveMask

/-- Whether the controllers pass on an interrupt of the line: those of the second one come through
line 2. -/
def Pic.Delivers (pic : Pic) (line : ℕ) : Prop :=
  if line < 8 then pic.masterImr.getLsbD line = false
  else pic.slaveImr.getLsbD (line - 8) = false ∧ pic.masterImr.getLsbD 2 = false

/-- A frequency that `rtc_write` takes: a power of two from 2 on. -/
def GoodFrequency (frequency : Byte) : Prop := ∃ n < 8, 0 < n ∧ frequency.toNat = 2 ^ n

instance (frequency : Byte) : Decidable (GoodFrequency frequency) :=
  inferInstanceAs (Decidable (∃ n < 8, 0 < n ∧ frequency.toNat = 2 ^ n))

/-- A buffer of `rtc_write` is null or holds a good frequency. -/
def MasksSafe (_ : Devs) : IrqOp → Prop
  | .rtcWrite mem buf => buf = 0 ∨ GoodFrequency (mem buf)
  | _ => True

/-! ## The masks -/

variable {m : Machine} {k : Kernel} {fr : Frame} {s s' : Devs} {op : IrqOp}

theorem linesOpen_entryPic : LinesOpen entryPic := ⟨by decide, by decide, by decide⟩

/-- The masks are those at the end of `entry`. -/
theorem linesOpen_iff {pic : Pic} : LinesOpen pic ↔ pic = entryPic := by
  constructor
  · intro h
    have hsame : ∀ line < 16, pic.masked line = entryPic.masked line := by
      intro line hline
      have hiff := (h.lines line hline).trans (linesOpen_entryPic.lines line hline).symm
      cases hm : entryPic.masked line with
      | false => exact hiff.mpr hm
      | true =>
        by_contra hne
        rw [hiff.mp (Bool.eq_false_of_not_eq_true hne)] at hm
        cases hm
    have hmaster : pic.masterMask = entryPic.masterMask := by
      apply BitVec.eq_of_getLsbD_eq
      intro i hi
      have hbit := hsame i (by omega)
      rw [Pic.masked, Pic.masked, if_pos hi, if_pos hi] at hbit
      exact hbit
    have hslave : pic.slaveMask = entryPic.slaveMask := by
      apply BitVec.eq_of_getLsbD_eq
      intro i hi
      have hbit := hsame (i + 8) (by omega)
      rw [Pic.masked, Pic.masked, if_neg (by omega), if_neg (by omega), Nat.add_sub_cancel] at hbit
      exact hbit
    obtain ⟨-, hmasterImr, hslaveImr⟩ := h
    cases pic
    dsimp only at hmaster hslave hmasterImr hslaveImr
    rw [hmasterImr, hslaveImr, hmaster, hslave]
    rfl
  · rintro rfl
    exact linesOpen_entryPic

/-- A line of `entry` that a handler masks and unmasks again. -/
theorem entryPic_enable {line : ℕ} (hline : line ∈ [0, 1, 8, 12]) :
    enableIrq (sendEoi entryPic line) line = entryPic ∧
      enableIrq (sendEoi (disableIrq entryPic line) line) line = entryPic := by
  revert line
  decide

theorem typeKey_pic (tty : Tty) (c key : Byte) : (typeKey tty c key).pic = tty.pic := by
  rw [typeKey]
  split_ifs
  · rw [backspaceKey]
    split_ifs <;> rfl
  all_goals rfl

theorem changeScreen_pic (k : Kernel) (tty : Tty) (newTermNum : Term) :
    (changeScreen k tty newTermNum).pic = tty.pic := by
  rw [changeScreen]
  split_ifs <;> rfl

/-- The keyboard handler ends with its line unmasked, also when it has left the end of a switch for
later. -/
theorem doHandleKeyboard_pic (m : Machine) (k : Kernel) (fr : Frame) {tty : Tty}
    (h : tty.pic = entryPic) (c : Byte) : (doHandleKeyboard m k fr tty c).2.2.pic = entryPic := by
  have hline : kbIrqLine ∈ [0, 1, 8, 12] := by decide
  have hbefore : (beforeKey tty).pic = disableIrq entryPic kbIrqLine := by
    rw [← h]
    rfl
  have hmade : enableIrq (sendEoi (beforeKey tty).pic kbIrqLine) kbIrqLine = entryPic := by
    rw [hbefore]
    exact (entryPic_enable hline).2
  rcases doHandleKeyboard_cases m k fr tty c with
    ⟨-, hcase⟩ | ⟨-, -, hcase⟩ | ⟨-, newNum, -, hcase | hcase⟩
  · rw [hcase]
    exact hmade
  · rw [hcase]
    show enableIrq (sendEoi (typeKey (madeKey tty c) c _).pic kbIrqLine) kbIrqLine = entryPic
    rw [typeKey_pic]
    exact hmade
  · rw [hcase, changeScreen_pic]
    exact hmade
  · rw [hcase]
    show enableIrq (sendEoi (changeScreen k _ newNum).pic kbIrqLine) kbIrqLine = entryPic
    rw [changeScreen_pic]
    show enableIrq (sendEoi (enableIrq (sendEoi (beforeKey tty).pic kbIrqLine) kbIrqLine)
      kbIrqLine) kbIrqLine = entryPic
    rw [hmade]
    exact (entryPic_enable hline).1

/-- The timer's handler ends with its line unmasked, whatever it switches to. -/
theorem doHandlePitPic_eq {pic : Pic} (h : doHandlePitPic m k fr entryPic = some pic) :
    pic = entryPic := by
  have hline : pitIrqLine ∈ [0, 1, 8, 12] := by decide
  have hend := (entryPic_enable hline).2
  rw [doHandlePitPic] at h
  split at h
  · rename_i eip _ _
    rw [← Option.some.inj h, ← hend]
    cases eip <;> rfl
  · rw [← Option.some.inj h, hend]
  · cases h

/-- `rtc_write` takes the powers of two from 2 on. -/
theorem goodFrequency_iff : ∀ frequency : Byte, GoodFrequency frequency ↔
    ¬ (maxFrequency < frequency.setWidth 32 ∨ frequency.setWidth 32 < minFrequency) ∧
      frequency.setWidth 32 &&& (frequency.setWidth 32 - 1) = 0 := by
  decide

/-- **A bad frequency leaves the line of the clock masked**, and nothing else does. -/
theorem rtcWrite_pic {rtc : Rtc} (h : rtc.pic = entryPic) (mem : Memory) (buf : Word) :
    (HieUnix.rtcWrite rtc mem buf).2.pic
      = if buf = 0 ∨ GoodFrequency (mem buf) then entryPic else disableIrq entryPic rtcIrqLine := by
  have henable : enableIrq (disableIrq entryPic rtcIrqLine) rtcIrqLine = entryPic := by decide
  have hgood := goodFrequency_iff (mem buf)
  rw [HieUnix.rtcWrite, h]
  by_cases hbuf : buf = 0
  · rw [if_pos hbuf, if_pos (.inl hbuf)]
    exact h
  · rw [if_neg hbuf]
    dsimp only
    by_cases hrange : maxFrequency < (mem buf).setWidth 32 ∨ (mem buf).setWidth 32 < minFrequency
    · rw [if_pos hrange, if_neg]
      intro h
      exact (hgood.mp (h.resolve_left hbuf)).1 hrange
    · rw [if_neg hrange]
      by_cases hpower : (mem buf).setWidth 32 &&& ((mem buf).setWidth 32 - 1) = 0
      · rw [if_neg (not_not_intro hpower), if_pos (.inr (hgood.mpr ⟨hrange, hpower⟩))]
        exact henable
      · rw [if_pos hpower, if_neg]
        intro h
        exact hpower (hgood.mp (h.resolve_left hbuf)).2

theorem disableIrq_entryPic_ne : disableIrq entryPic rtcIrqLine ≠ entryPic := by decide

/-- **One handler or call** leaves the masks as they were, unless it is an `rtc_write` of a bad
frequency. -/
theorem IrqOp.run_pic (h : s.tty.pic = entryPic) (hrun : op.run m s = some s') :
    s'.tty.pic = entryPic ↔ MasksSafe s op := by
  have hrtc : rtcIrqLine ∈ [0, 1, 8, 12] := by decide
  cases op with
  | pit k fr =>
    refine iff_of_true ?_ trivial
    rw [IrqOp.run, h] at hrun
    obtain ⟨pic, hpic, rfl⟩ := Option.map_eq_some_iff.mp hrun
    exact doHandlePitPic_eq hpic
  | keyboard k fr c =>
    refine iff_of_true ?_ trivial
    rw [← Option.some.inj hrun]
    exact doHandleKeyboard_pic m k fr h c
  | afterSwitch =>
    refine iff_of_true ?_ trivial
    rw [← Option.some.inj hrun]
    show enableIrq (sendEoi s.tty.pic kbIrqLine) kbIrqLine = entryPic
    rw [h]
    exact (entryPic_enable (by decide)).1
  | mouse data =>
    refine iff_of_true ?_ trivial
    rw [← Option.some.inj hrun]
    show (doHandleMouse s.tty data).pic = entryPic
    rw [doHandleMouse_pic, h]
    exact (entryPic_enable (by decide)).1
  | rtc =>
    refine iff_of_true ?_ trivial
    rw [← Option.some.inj hrun]
    show enableIrq (sendEoi (disableIrq s.tty.pic rtcIrqLine) rtcIrqLine) rtcIrqLine = entryPic
    rw [h]
    exact (entryPic_enable hrtc).2
  | rtcOpen fd =>
    refine iff_of_true ?_ trivial
    rw [← Option.some.inj hrun]
    cases fd with
    | none => exact h
    | some fd =>
      show enableIrq (disableIrq s.tty.pic rtcIrqLine) rtcIrqLine = entryPic
      rw [h]
      decide
  | rtcRead =>
    refine iff_of_true ?_ trivial
    rw [← Option.some.inj hrun]
    exact h
  | rtcWrite mem buf =>
    rw [← Option.some.inj hrun]
    show (HieUnix.rtcWrite s.rtc mem buf).2.pic = entryPic ↔ buf = 0 ∨ GoodFrequency (mem buf)
    rw [rtcWrite_pic h mem buf]
    split_ifs with hgood
    · exact iff_of_true rfl hgood
    · exact iff_of_false disableIrq_entryPic_ne hgood

/-! ## Runs -/

theorem pic_of_reach (h : (irqLTS m).Reach MasksSafe s) : s.tty.pic = entryPic := by
  apply h.invariant (I := fun s => s.tty.pic = entryPic)
  · intro s hinit
    obtain ⟨mem, banner, htty⟩ := hinit
    rw [htty]
    rfl
  · intro s op s' hs hsafe hrun
    exact (IrqOp.run_pic hs hrun).mpr hsafe

/-- The handler of the clock clears the flag, `rtc_read` sets it, and nothing else changes it. -/
theorem IrqOp.run_intOccured (hrun : op.run m s = some s') (hread : op ≠ .rtcRead)
    (hrtc : op ≠ .rtc) : s'.intOccured = s.intOccured := by
  cases op with
  | pit k fr =>
    obtain ⟨pic, -, rfl⟩ := Option.map_eq_some_iff.mp hrun
    rfl
  | keyboard k fr c =>
    rw [← Option.some.inj hrun]
  | afterSwitch =>
    rw [← Option.some.inj hrun]
  | mouse data =>
    rw [← Option.some.inj hrun]
  | rtc => exact absurd rfl hrtc
  | rtcOpen fd =>
    rw [← Option.some.inj hrun]
    cases fd <;> rfl
  | rtcRead => exact absurd rfl hread
  | rtcWrite mem buf =>
    rw [← Option.some.inj hrun]
    show (HieUnix.rtcWrite s.rtc mem buf).2.intOccured = s.rtc.intOccured
    rw [HieUnix.rtcWrite]
    dsimp only
    split_ifs <;> rfl

end HieUnix
