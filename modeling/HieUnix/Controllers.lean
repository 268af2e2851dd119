import HieUnix.Lib.InterruptController
import HieUnix.Clock
import HieUnix.InterruptFrames

/-!
# The interrupt controllers

`i8259.c` at its ports: what `i8259_init` makes of the two controllers, and what `enable_irq`,
`disable_irq` and `send_eoi` write. The masks of the kernel refine those of the controllers. In
every run of the handlers and the calls of the clock's driver, with the devices raising their lines
at any time, no line is in service when a handler is done; so that the lines of the timer, the
keyboard, the clock and the mouse are served in this order, and none is lost.
-/

namespace HieUnix

open Interrupt

/-- The masks of `i8259.c` and the controllers. -/
structure Controllers where
  masterMask : Byte
  slaveMask : Byte
  pics : Pic8259.Pair

namespace Controllers

/-- `i8259_init`. -/
def i8259Init (s : Controllers) : Controllers :=
  { s with
    pics := [((0xFF : Byte), (0x21 : BitVec 16)), (0xFF, 0xA1),
      (0x11, 0x20), (0x20, 0x21), (0x04, 0x21), (0x01, 0x21),
      (0x11, 0xA0), (0x28, 0xA1), (0x02, 0xA1), (0x01, 0xA1),
      (s.masterMask, 0x21), (s.slaveMask, 0xA1)].foldl (fun p w => p.outb w.1 w.2) s.pics }

/-- `enable_irq`. -/
def enableIrq (s : Controllers) (irqNum : ℕ) : Controllers :=
  if irqNum < 8 then
    let mask := s.masterMask &&& ~~~((1 : Byte) <<< irqNum)
    { s with masterMask := mask, pics := s.pics.outb mask 0x21 }
  else if irqNum < 16 then
    let mask := s.slaveMask &&& ~~~((1 : Byte) <<< (irqNum - 8))
    { s with slaveMask := mask, pics := s.pics.outb mask 0xA1 }
  else s

/-- `disable_irq`. -/
def disableIrq (s : Controllers) (irqNum : ℕ) : Controllers :=
  if irqNum < 8 then
    let mask := s.masterMask ||| ((1 : Byte) <<< irqNum)
    { s with masterMask := mask, pics := s.pics.outb mask 0x21 }
  else if irqNum < 16 then
    let mask := s.slaveMask ||| ((1 : Byte) <<< (irqNum - 8))
    { s with slaveMask := mask, pics := s.pics.outb mask 0xA1 }
  else s

/-- `send_eoi`: for a line of the second controller the first is told, too. -/
def sendEoi (s : Controllers) (irqNum : ℕ) : Controllers :=
  if 15 < irqNum then s
  else if irqNum < 8 then
    let mask := s.masterMask ||| ((1 : Byte) <<< irqNum)
    { s with
      masterMask := mask
      pics := (s.pics.outb mask 0x21).outb (0x60 ||| BitVec.ofNat 8 irqNum) 0x20 }
  else
    let mask := s.slaveMask ||| ((1 : Byte) <<< (irqNum - 8))
    { s with
      slaveMask := mask
      pics := ((s.pics.outb mask 0xA1).outb (0x60 ||| BitVec.ofNat 8 (irqNum - 8)) 0xA0).outb
        (0x60 ||| 2) 0x20 }

/-- The controllers as the kernel runs them, with the masks `pic`, and what is requested of each of
them and in service. -/
def running (pic : Pic) (irr isr irr' isr' : Byte) : Controllers where
  masterMask := pic.masterMask
  slaveMask := pic.slaveMask
  pics :=
    { master := ⟨irr, isr, pic.masterImr, 0x20, 0x04, false, .ready⟩
      slave := ⟨irr', isr', pic.slaveImr, 0x28, 0x02, false, .ready⟩ }

/-- **After `i8259_init`**, whatever the controllers were told before. -/
theorem i8259Init_eq (s : Controllers) : s.i8259Init
    = running ⟨s.masterMask, s.slaveMask, s.masterMask, s.slaveMask⟩ 0 0 0 0 := rfl

end Controllers

/-! ## Calls -/

/-- A call of `i8259.c`. -/
inductive PicCall
  | enable (line : ℕ)
  | disable (line : ℕ)
  | eoi (line : ℕ)
deriving DecidableEq

namespace PicCall

def run (s : Controllers) : PicCall → Controllers
  | enable line => s.enableIrq line
  | disable line => s.disableIrq line
  | eoi line => s.sendEoi line

/-- The call on the masks alone. -/
def onMasks (pic : Pic) : PicCall → Pic
  | enable line => enableIrq pic line
  | disable line => disableIrq pic line
  | eoi line => sendEoi pic line

/-- The lines that are in service after the call. -/
def served (isr : Byte × Byte) : PicCall → Byte × Byte
  | eoi line =>
    if line < 8 then (isr.1 &&& ~~~((1 : Byte) <<< line), isr.2)
    else if line < 16 then
      (isr.1 &&& ~~~((1 : Byte) <<< 2), isr.2 &&& ~~~((1 : Byte) <<< (line - 8)))
    else isr
  | _ => isr

variable (pic : Pic) (irr isr irr' isr' : Byte)

/-- **A call** does to the controllers what it does to the masks, and ends the line it is for. -/
theorem run_running (c : PicCall) : c.run (.running pic irr isr irr' isr')
    = .running (c.onMasks pic) irr (c.served (isr, isr')).1 irr' (c.served (isr, isr')).2 := by
  cases c with
  | enable line =>
    show Controllers.enableIrq _ line = .running (enableIrq pic line) irr isr irr' isr'
    unfold Controllers.enableIrq enableIrq
    split_ifs <;> rfl
  | disable line =>
    show Controllers.disableIrq _ line = .running (disableIrq pic line) irr isr irr' isr'
    unfold Controllers.disableIrq disableIrq
    split_ifs <;> rfl
  | eoi line =>
    show Controllers.sendEoi _ line = .running (sendEoi pic line) irr
      (served (isr, isr') (eoi line)).1 irr' (served (isr, isr') (eoi line)).2
    by_cases h8 : line < 8
    · have hserved : served (isr, isr') (eoi line)
          = (isr &&& ~~~((1 : Byte) <<< line), isr') := if_pos h8
      rw [hserved, Controllers.sendEoi, if_neg (by omega), if_pos h8, sendEoi, disableIrq,
        if_pos h8]
      show Controllers.mk _ _ (Pic8259.Pair.mk (Pic8259.Chip.command _ _) _) = _
      rw [Pic8259.Chip.command_eoi _ h8]
      rfl
    · by_cases h16 : line < 16
      · have hserved : served (isr, isr') (eoi line) = (isr &&& ~~~((1 : Byte) <<< 2),
            isr' &&& ~~~((1 : Byte) <<< (line - 8))) := (if_neg h8).trans (if_pos h16)
        rw [hserved, Controllers.sendEoi, if_neg (by omega), if_neg h8, sendEoi, disableIrq,
          if_neg h8, if_pos h16]
        -- the line of the second controller, and that of the first it is wired to
        show Controllers.mk _ _ (Pic8259.Pair.mk
          (Pic8259.Chip.command _ (0x60 ||| BitVec.ofNat 8 2)) (Pic8259.Chip.command _ _)) = _
        rw [Pic8259.Chip.command_eoi _ (show 2 < 8 by decide),
          Pic8259.Chip.command_eoi _ (show line - 8 < 8 by omega)]
        rfl
      · have hserved : served (isr, isr') (eoi line) = (isr, isr') :=
          (if_neg h8).trans (if_neg h16)
        rw [hserved, Controllers.sendEoi, if_pos (by omega), sendEoi, disableIrq, if_neg h8,
          if_neg h16]

theorem foldl_run_running (calls : List PicCall) :
    calls.foldl run (.running pic irr isr irr' isr')
      = .running (calls.foldl onMasks pic) irr (calls.foldl served (isr, isr')).1 irr'
        (calls.foldl served (isr, isr')).2 := by
  induction calls generalizing pic isr isr' with
  | nil => rfl
  | cons c calls ih => rw [List.foldl_cons, run_running, ih, List.foldl_cons, List.foldl_cons]

/-- What is not in service does not come into service by a call. -/
theorem foldl_served_zero (calls : List PicCall) : calls.foldl served (0, 0) = (0, 0) := by
  induction calls with
  | nil => rfl
  | cons c calls ih =>
    have hzero : c.served (0, 0) = (0, 0) := by
      cases c with
      | eoi line =>
        simp only [served]
        split_ifs <;> simp
      | _ => rfl
    rw [List.foldl_cons, hzero, ih]

end PicCall

/-! ## Handlers -/

/-- The end of a handler. -/
def endCalls (line : ℕ) : List PicCall := [.eoi line, .enable line]

/-- The calls that the keyboard handler makes. When the switch to a terminal has started a program
there the end of the handler is left for later (`afterSwitch`). -/
def keyboardCalls (m : Machine) (k : Kernel) (fr : Frame) (tty : Tty) (c : Byte) : List PicCall :=
  .disable kbIrqLine ::
    if isBreak c then endCalls kbIrqLine
    else
      match switchKey (makeKey tty.mods c) c with
      | some newNum =>
        match changeVideoMem m k fr tty.active newNum with
        | (.ret _, _) => endCalls kbIrqLine ++ endCalls kbIrqLine
        | _ => endCalls kbIrqLine
      | none => endCalls kbIrqLine

/-- The calls that `rtc_write` makes. -/
def rtcWriteCalls (mem : Memory) (buf : Word) : List PicCall :=
  if buf = 0 then []
  else if GoodFrequency (mem buf) then [.disable rtcIrqLine, .enable rtcIrqLine]
  else [.disable rtcIrqLine]

/-- The calls of `i8259.c` that a handler or a call of `rtc.c` makes. Those at the end of
`do_handle_pit` are made by the process it has switched to. -/
def IrqOp.picCalls (m : Machine) (s : Devs) : IrqOp → List PicCall
  | .pit _ _ => .disable pitIrqLine :: endCalls pitIrqLine
  | .keyboard k fr c => keyboardCalls m k fr s.tty c
  | .afterSwitch => endCalls kbIrqLine
  | .mouse _ => endCalls mouseIrqLine
  | .rtc => .disable rtcIrqLine :: endCalls rtcIrqLine
  | .rtcOpen none => []
  | .rtcOpen (some _) => [.disable rtcIrqLine, .enable rtcIrqLine]
  | .rtcRead => []
  | .rtcWrite mem buf => rtcWriteCalls mem buf

variable {m : Machine} {s s' : Devs} {op : IrqOp}

theorem keyboardCalls_masks (m : Machine) (k : Kernel) (fr : Frame) (tty : Tty) (c : Byte) :
    (keyboardCalls m k fr tty c).foldl PicCall.onMasks tty.pic
      = (doHandleKeyboard m k fr tty c).2.2.pic := by
  have hmods : (beforeKey tty).mods = tty.mods := rfl
  have hactive : ∀ mods, (acknowledge { beforeKey tty with mods := mods } kbIrqLine).active
      = tty.active := fun _ => rfl
  unfold keyboardCalls doHandleKeyboard
  by_cases hbreak : isBreak c
  · simp only [hbreak, if_true]
    rfl
  · simp only [hbreak, hmods]
    cases hswitch : switchKey (makeKey tty.mods c) c with
    | none =>
      dsimp only
      show enableIrq (sendEoi (disableIrq tty.pic kbIrqLine) kbIrqLine) kbIrqLine
        = enableIrq (sendEoi (typeKey _ c _).pic kbIrqLine) kbIrqLine
      rw [typeKey_pic]
      rfl
    | some newNum =>
      simp only [hactive]
      rcases changeVideoMem m k fr tty.active newNum with ⟨r, k'⟩
      cases r with
      | ret =>
        show _ = enableIrq (sendEoi (changeScreen k _ newNum).pic kbIrqLine) kbIrqLine
        rw [changeScreen_pic]
        rfl
      | _ =>
        show _ = (changeScreen k _ newNum).pic
        rw [changeScreen_pic]
        rfl

theorem rtcWriteCalls_masks (rtc : Rtc) (mem : Memory) (buf : Word) :
    (rtcWriteCalls mem buf).foldl PicCall.onMasks rtc.pic = (rtcWrite rtc mem buf).2.pic := by
  have hgood := goodFrequency_iff (mem buf)
  unfold rtcWriteCalls rtcWrite
  by_cases hbuf : buf = 0
  · rw [if_pos hbuf, if_pos hbuf]
    rfl
  · rw [if_neg hbuf, if_neg hbuf]
    dsimp only
    by_cases hrange : maxFrequency < (mem buf).setWidth 32 ∨ (mem buf).setWidth 32 < minFrequency
    · rw [if_pos hrange, if_neg fun h => (hgood.mp h).1 hrange]
      rfl
    · rw [if_neg hrange]
      by_cases hpower : (mem buf).setWidth 32 &&& ((mem buf).setWidth 32 - 1) = 0
      · rw [if_neg (not_not_intro hpower), if_pos (hgood.mpr ⟨hrange, hpower⟩)]
        rfl
      · rw [if_pos hpower, if_neg fun h => hpower (hgood.mp h).2]
        rfl

/-- **The calls** are those of the modelled handlers: on the masks they do what the handlers do. -/
theorem IrqOp.picCalls_masks (hrun : op.run m s = some s') :
    (op.picCalls m s).foldl PicCall.onMasks s.tty.pic = s'.tty.pic := by
  cases op with
  | pit k fr =>
    obtain ⟨pic, hpic, rfl⟩ := Option.map_eq_some_iff.mp hrun
    rw [doHandlePitPic] at hpic
    split at hpic
    · rename_i eip _ _
      rw [← Option.some.inj hpic]
      cases eip <;> rfl
    · rw [← Option.some.inj hpic]
      rfl
    · cases hpic
  | keyboard k fr c =>
    rw [← Option.some.inj hrun]
    exact keyboardCalls_masks m k fr s.tty c
  | mouse data =>
    rw [← Option.some.inj hrun]
    exact (doHandleMouse_pic s.tty data).symm
  | rtcOpen fd =>
    rw [← Option.some.inj hrun]
    cases fd <;> rfl
  | rtcWrite mem buf =>
    rw [← Option.some.inj hrun]
    exact rtcWriteCalls_masks s.rtc mem buf
  | _ =>
    rw [← Option.some.inj hrun]
    rfl

/-! ## Accepting an interrupt -/

/-- The line of a device. -/
def irqLine : Irq → ℕ
  | .pit => pitIrqLine
  | .keyboard => kbIrqLine
  | .rtc => rtcIrqLine
  | .mouse => mouseIrqLine

/-- The devices by the priority of their lines: those of the second controller come after lines 0
and 1. -/
def devices : List Irq := [.pit, .keyboard, .rtc, .mouse]

/-- The controllers when the processor has taken the interrupt of a device: its line is in service,
and that of the first controller that it comes through. -/
def accepted (pic : Pic) (irr irr' : Byte) (i : Irq) : Controllers :=
  if irqLine i < 8 then
    .running pic (irr &&& ~~~((1 : Byte) <<< irqLine i)) ((1 : Byte) <<< irqLine i) irr' 0
  else
    .running pic (irr &&& ~~~((1 : Byte) <<< 2)) ((1 : Byte) <<< 2)
      (irr' &&& ~~~((1 : Byte) <<< (irqLine i - 8))) ((1 : Byte) <<< (irqLine i - 8))

theorem entryPic_eq : entryPic = ⟨0xF8, 0xEE, 0xF8, 0xEE⟩ := by decide

variable {irr irr' : Byte}

/-- Of the lines of the second controller those of the clock and the mouse are passed on. -/
theorem pending_slave (irr irr' : Byte) :
    let slave := (Controllers.running entryPic irr 0 irr' 0).pics.slave
    slave.pending slave.irr
      = if irr'.getLsbD 0 then some 0 else if irr'.getLsbD 4 then some 4 else none := by
  intro slave
  have himr : slave.imr = 0xEE := by
    show entryPic.slaveImr = 0xEE
    rw [entryPic_eq]
  have hirr : slave.irr = irr' := rfl
  rw [Pic8259.Chip.pending_of_idle rfl, himr, hirr]
  cases h0 : irr'.getLsbD 0 <;> cases h4 : irr'.getLsbD 4 <;>
    simp [-BitVec.getLsbD_eq_getElem, List.range, List.range.loop, h0, h4]

/-- Of the first controller, those of the timer, the keyboard and the second controller. -/
theorem pending_master (irr irr' lines : Byte) :
    let master := (Controllers.running entryPic irr 0 irr' 0).pics.master
    master.pending lines
      = if lines.getLsbD 0 then some 0 else if lines.getLsbD 1 then some 1
        else if lines.getLsbD 2 then some 2 else none := by
  intro master
  have himr : master.imr = 0xF8 := by
    show entryPic.masterImr = 0xF8
    rw [entryPic_eq]
  rw [Pic8259.Chip.pending_of_idle rfl, himr]
  cases h0 : lines.getLsbD 0 <;> cases h1 : lines.getLsbD 1 <;> cases h2 : lines.getLsbD 2 <;>
    simp [-BitVec.getLsbD_eq_getElem, List.range, List.range.loop, h0, h1, h2]

/-- Line 2 of the first controller is raised by the second. -/
theorem masterIrr_running (irr' : Byte) (h2 : irr.getLsbD 2 = false) :
    let lines := (Controllers.running entryPic irr 0 irr' 0).pics.masterIrr
    lines.getLsbD 0 = irr.getLsbD 0 ∧ lines.getLsbD 1 = irr.getLsbD 1 ∧
      lines.getLsbD 2 = (irr'.getLsbD 0 || irr'.getLsbD 4) := by
  intro lines
  have hlines : lines = if (if irr'.getLsbD 0 then some 0 else if irr'.getLsbD 4 then some 4
      else none : Option ℕ).isSome then irr ||| 4 else irr := by
    rw [← pending_slave irr irr']
    rfl
  rw [hlines]
  cases h0 : irr'.getLsbD 0 <;> cases h4 : irr'.getLsbD 4 <;>
    simp [-BitVec.getLsbD_eq_getElem, h2]

theorem find_devices (asks : Irq → Bool) : devices.find? asks
    = if asks .pit then some .pit else if asks .keyboard then some .keyboard
      else if asks .rtc then some .rtc else if asks .mouse then some .mouse else none := by
  simp only [devices, List.find?_cons, List.find?_nil]
  cases asks .pit <;> cases asks .keyboard <;> cases asks .rtc <;> cases asks .mouse <;> rfl

theorem pics_accepted (irr irr' : Byte) (i : Irq) :
    let p := (Controllers.running entryPic irr 0 irr' 0).pics
    (accepted entryPic irr irr' i).pics
      = { master := p.master.take (if irqLine i < 8 then irqLine i else 2)
          slave := if irqLine i < 8 then p.slave else p.slave.take (irqLine i - 8) } := by
  intro p
  unfold accepted
  split_ifs
  · simp [p, Controllers.running, Pic8259.Chip.take]
  · simp [p, Controllers.running, Pic8259.Chip.take]

/-- **The first device** that asks is accepted, with its vector. -/
theorem accept_running (h2 : irr.getLsbD 2 = false) :
    (Controllers.running entryPic irr 0 irr' 0).pics.accept
      = (devices.find? fun i =>
          (Controllers.running entryPic irr 0 irr' 0).pics.requested (irqLine i)).map
        fun i => (i.vector, (accepted entryPic irr irr' i).pics) := by
  have hslave := pending_slave irr irr'
  have hmaster := fun lines => pending_master irr irr' lines
  have hbits := masterIrr_running irr' h2
  have htaken := pics_accepted irr irr'
  rw [find_devices]
  -- the lines of the devices
  have h0 : (Controllers.running entryPic irr 0 irr' 0).pics.requested (irqLine .pit)
      = irr.getLsbD 0 := rfl
  have h1 : (Controllers.running entryPic irr 0 irr' 0).pics.requested (irqLine .keyboard)
      = irr.getLsbD 1 := rfl
  have h8 : (Controllers.running entryPic irr 0 irr' 0).pics.requested (irqLine .rtc)
      = irr'.getLsbD 0 := rfl
  have h12 : (Controllers.running entryPic irr 0 irr' 0).pics.requested (irqLine .mouse)
      = irr'.getLsbD 4 := rfl
  have hbase : (Controllers.running entryPic irr 0 irr' 0).pics.master.base = 0x20 ∧
      (Controllers.running entryPic irr 0 irr' 0).pics.slave.base = 0x28 ∧
      (Controllers.running entryPic irr 0 irr' 0).pics.master.links = 0x04 ∧
      (Controllers.running entryPic irr 0 irr' 0).pics.slave.links = 0x02 := ⟨rfl, rfl, rfl, rfl⟩
  rw [h0, h1, h8, h12]
  clear h0 h1 h8 h12
  generalize (Controllers.running entryPic irr 0 irr' 0).pics = p
    at hslave hmaster hbits htaken hbase ⊢
  change p.slave.pending p.slave.irr = _ at hslave
  change ∀ lines, p.master.pending lines = _ at hmaster
  obtain ⟨hbit0, hbit1, hbit2⟩ := hbits
  obtain ⟨hb, hb', hl, hl'⟩ := hbase
  rw [Pic8259.Pair.accept, hmaster, hbit0, hbit1, hbit2, hslave, hb, hb', hl, hl']
  cases irr.getLsbD 0 <;> cases irr.getLsbD 1 <;> cases irr'.getLsbD 0 <;>
    cases irr'.getLsbD 4 <;> simp [htaken, Irq.vector, irqLine, pitIrqLine, kbIrqLine,
      rtcIrqLine, mouseIrqLine]

/-! ## Runs -/

/-- The device whose interrupt a handler is for. -/
def IrqOp.irq : IrqOp → Option Irq
  | .pit _ _ => some .pit
  | .keyboard _ _ _ => some .keyboard
  | .mouse _ => some .mouse
  | .rtc => some .rtc
  | _ => none

/-- The devices and their controllers. -/
structure IrqState where
  devs : Devs
  chips : Controllers

/-- A device raises its line, a handler runs or a call, or `execute` returns after a `halt`. -/
inductive IrqEvent
  | request (line : ℕ)
  | op (o : IrqOp)
  | afterHalt

/-- The controllers when the handler or the call begins: a handler has been accepted, with its
vector. -/
def Begins (p p' : Pic8259.Pair) : Option Irq → Prop
  | some i => p.accept = some (i.vector, p')
  | none => p' = p

/-- The runs from the end of `entry` on. Nothing but the second controller is wired to line 2. -/
def controllerLTS (m : Machine) : LTS IrqState IrqEvent where
  init s := (∃ mem banner, s.devs.tty = bootTty mem banner) ∧
    ∃ chips : Controllers, s.chips = [1, 2, 8, 12, 0].foldl Controllers.enableIrq
      ({ chips with masterMask := 0xFF, slaveMask := 0xFF } : Controllers).i8259Init
  step s e s' :=
    match e with
    | .request line => line < 16 ∧ line ≠ 2 ∧
        s' = { s with chips := { s.chips with pics := s.chips.pics.request line } }
    | .op o => o.run m s.devs = some s'.devs ∧ ∃ p, Begins s.chips.pics p o.irq ∧
        s'.chips = (o.picCalls m s.devs).foldl PicCall.run { s.chips with pics := p }
    | .afterHalt => s' =
        { devs := s.devs.setPic (continuePic s.devs.tty.pic .retHere)
          chips := (endCalls pitIrqLine).foldl PicCall.run s.chips }

/-- `rtc_write` gets no bad frequency. -/
def EventSafe (s : IrqState) : IrqEvent → Prop
  | .op o => MasksSafe s.devs o
  | _ => True

/-- Between the handlers: the lines of `entry` are unmasked, and nothing is in service. -/
def Idle (s : IrqState) : Prop :=
  s.devs.tty.pic = entryPic ∧ ∃ irr irr' : Byte, irr.getLsbD 2 = false ∧
    s.chips = .running entryPic irr 0 irr' 0

variable {m : Machine} {s s' : IrqState} {e : IrqEvent} {o : IrqOp}

/-- A handler ends the interrupt that it is for. -/
theorem served_accepted {i : Irq} (ho : o.irq = some i) (s : Devs) :
    (o.picCalls m s).foldl PicCall.served
      (if irqLine i < 8 then ((1 : Byte) <<< irqLine i, 0)
        else ((1 : Byte) <<< 2, (1 : Byte) <<< (irqLine i - 8))) = (0, 0) := by
  cases o with
  | pit k fr =>
    obtain rfl := Option.some.inj ho
    show (PicCall.disable pitIrqLine :: endCalls pitIrqLine).foldl PicCall.served (1, 0) = (0, 0)
    decide
  | keyboard k fr c =>
    obtain rfl := Option.some.inj ho
    show (keyboardCalls m k fr s.tty c).foldl PicCall.served (2, 0) = (0, 0)
    have hend : (endCalls kbIrqLine).foldl PicCall.served (2, 0) = (0, 0) := by decide
    have htwice : (endCalls kbIrqLine ++ endCalls kbIrqLine).foldl PicCall.served (2, 0)
        = (0, 0) := by decide
    rw [keyboardCalls, List.foldl_cons]
    show List.foldl PicCall.served (2, 0) _ = (0, 0)
    split_ifs
    · exact hend
    · split
      · split
        · exact htwice
        · exact hend
      · exact hend
  | mouse data =>
    obtain rfl := Option.some.inj ho
    show (endCalls mouseIrqLine).foldl PicCall.served (4, 0x10) = (0, 0)
    decide
  | rtc =>
    obtain rfl := Option.some.inj ho
    show (PicCall.disable rtcIrqLine :: endCalls rtcIrqLine).foldl PicCall.served (4, 1) = (0, 0)
    decide
  | _ => exact absurd ho (by simp [IrqOp.irq])

/-- The controllers at the end of `entry`. -/
theorem boot_chips (chips : Controllers) : [1, 2, 8, 12, 0].foldl Controllers.enableIrq
      ({ chips with masterMask := 0xFF, slaveMask := 0xFF } : Controllers).i8259Init
    = .running entryPic 0 0 0 0 := by
  have hcalls := PicCall.foldl_run_running ⟨0xFF, 0xFF, 0xFF, 0xFF⟩ 0 0 0 0
    (([1, 2, 8, 12, 0] : List ℕ).map PicCall.enable)
  rw [List.foldl_map, List.foldl_map, List.foldl_map] at hcalls
  rw [Controllers.i8259Init_eq]
  exact hcalls

theorem idle_init (h : (controllerLTS m).init s) : Idle s := by
  obtain ⟨⟨mem, banner, htty⟩, chips, hchips⟩ := h
  exact ⟨by rw [htty]; rfl, 0, 0, by decide, hchips.trans (boot_chips chips)⟩

/-- The controllers at the end of a handler or a call: the device it was for no longer asks. -/
def afterOp (irr irr' : Byte) : Option Irq → Controllers
  | none => .running entryPic irr 0 irr' 0
  | some i =>
    if irqLine i < 8 then .running entryPic (irr &&& ~~~((1 : Byte) <<< irqLine i)) 0 irr' 0
    else .running entryPic (irr &&& ~~~((1 : Byte) <<< 2)) 0
      (irr' &&& ~~~((1 : Byte) <<< (irqLine i - 8))) 0

/-- **A handler or a call** ends with nothing in service. -/
theorem chips_of_op {irr irr' : Byte} (h2 : irr.getLsbD 2 = false)
    (hpic : s.devs.tty.pic = entryPic) (hchips : s.chips = .running entryPic irr 0 irr' 0)
    (hsafe : MasksSafe s.devs o) (hst : (controllerLTS m).step s (.op o) s') :
    s'.devs.tty.pic = entryPic ∧ s'.chips = afterOp irr irr' o.irq := by
  obtain ⟨hrun, p, hbegins, hend⟩ := hst
  have hpic' : s'.devs.tty.pic = entryPic := (IrqOp.run_pic hpic hrun).mpr hsafe
  have hmasks := IrqOp.picCalls_masks hrun
  rw [hpic, hpic'] at hmasks
  refine ⟨hpic', ?_⟩
  rw [hend, hchips]
  rw [hchips] at hbegins
  -- a call of `rtc.c` serves no interrupt; a handler serves the one that was accepted
  cases ho : o.irq with
  | none =>
    rw [ho] at hbegins
    change p = _ at hbegins
    subst hbegins
    show (o.picCalls m s.devs).foldl PicCall.run (.running entryPic irr 0 irr' 0) = _
    rw [PicCall.foldl_run_running, hmasks, PicCall.foldl_served_zero]
    rfl
  | some i =>
    rw [ho] at hbegins
    change Pic8259.Pair.accept _ = some (i.vector, p) at hbegins
    have hserved := served_accepted (m := m) ho s.devs
    rw [accept_running h2] at hbegins
    obtain ⟨j, -, hj⟩ := Option.map_eq_some_iff.mp hbegins
    obtain ⟨hvector, hp⟩ := Prod.mk.inj hj
    -- the vectors tell the lines apart
    have hij : j = i := by
      revert hvector
      cases i <;> cases j <;> decide
    subst hij hp
    by_cases h8 : irqLine j < 8
    · rw [if_pos h8] at hserved
      rw [accepted, if_pos h8]
      show (o.picCalls m s.devs).foldl PicCall.run (.running entryPic _ _ irr' 0) = _
      rw [PicCall.foldl_run_running, hmasks, hserved]
      exact (if_pos h8).symm
    · rw [if_neg h8] at hserved
      rw [accepted, if_neg h8]
      show (o.picCalls m s.devs).foldl PicCall.run (.running entryPic _ _ _ _) = _
      rw [PicCall.foldl_run_running, hmasks, hserved]
      exact (if_neg h8).symm

/-- The end of a handler, when nothing is in service. -/
theorem endCalls_running (irr irr' : Byte) :
    (endCalls pitIrqLine).foldl PicCall.run (.running entryPic irr 0 irr' 0)
      = .running entryPic irr 0 irr' 0 := by
  have hline : pitIrqLine ∈ [0, 1, 8, 12] := by decide
  have hmasks : (endCalls pitIrqLine).foldl PicCall.onMasks entryPic = entryPic :=
    (entryPic_enable hline).1
  rw [PicCall.foldl_run_running, hmasks, PicCall.foldl_served_zero]

theorem Idle.step (h : Idle s) (hsafe : EventSafe s e) (hst : (controllerLTS m).step s e s') :
    Idle s' := by
  obtain ⟨hpic, irr, irr', h2, hchips⟩ := h
  cases e with
  | request line =>
    obtain ⟨hline, hne, rfl⟩ := hst
    refine ⟨hpic, ?_⟩
    -- a line of the first controller or of the second one
    by_cases h8 : line < 8
    · have hbit : ∀ n < 8, n ≠ 2 → ((1 : Byte) <<< n).getLsbD 2 = false := by decide
      refine ⟨irr ||| (1 : Byte) <<< line, irr', ?_, ?_⟩
      · rw [BitVec.getLsbD_or, h2, Bool.false_or]
        exact hbit line h8 hne
      · show Controllers.mk _ _ (Pic8259.Pair.request _ line) = _
        rw [hchips, Pic8259.Pair.request, if_pos h8]
        rfl
    · refine ⟨irr, irr' ||| (1 : Byte) <<< (line - 8), h2, ?_⟩
      show Controllers.mk _ _ (Pic8259.Pair.request _ line) = _
      rw [hchips, Pic8259.Pair.request, if_neg h8]
      rfl
  | op o =>
    obtain ⟨hpic', hchips'⟩ := chips_of_op h2 hpic hchips hsafe hst
    refine ⟨hpic', ?_⟩
    cases ho : o.irq with
    | none =>
      rw [ho] at hchips'
      exact ⟨irr, irr', h2, hchips'⟩
    | some i =>
      rw [ho, afterOp] at hchips'
      split_ifs at hchips'
      · exact ⟨_, _, by rw [BitVec.getLsbD_and, h2, Bool.false_and], hchips'⟩
      · exact ⟨_, _, by rw [BitVec.getLsbD_and, h2, Bool.false_and], hchips'⟩
  | afterHalt =>
    change s' = _ at hst
    subst hst
    refine ⟨?_, irr, irr', h2, ?_⟩
    · show enableIrq (sendEoi s.devs.tty.pic pitIrqLine) pitIrqLine = entryPic
      rw [hpic]
      exact (entryPic_enable (by decide)).1
    · rw [hchips]
      exact endCalls_running irr irr'

theorem idle_of_reach (h : (controllerLTS m).Reach EventSafe s) : Idle s :=
  h.invariant (fun _ => idle_init) fun _ _ _ => Idle.step

/-- A step takes back no request but that of the device it serves. -/
theorem requested_of_op {irr irr' : Byte} {i j : Irq} (hij : i ≠ j)
    (h : (Controllers.running entryPic irr 0 irr' 0).pics.requested (irqLine i)) :
    (afterOp irr irr' (some j)).pics.requested (irqLine i) := by
  have hbit : ∀ (b : Byte) (n k : ℕ), n < 8 → n ≠ k → b.getLsbD n = true →
      (b &&& ~~~((1 : Byte) <<< k)).getLsbD n = true := by
    intro b n k hn hnk hb
    have hone : ((1 : Byte) <<< k).getLsbD n = false := by
      rw [BitVec.getLsbD_shiftLeft]
      by_cases hlt : n < k
      · simp [hlt]
      · have hsub : n - k ≠ 0 := by omega
        simp [BitVec.getLsbD_one, hsub]
    rw [BitVec.getLsbD_and, BitVec.getLsbD_not, hb, hone]
    simp [hn]
  cases i <;> cases j <;> first
    | exact absurd rfl hij
    | exact h
    | exact hbit _ _ _ (by decide) (by decide) h

/-- **No interrupt is lost.** In every run in which `rtc_write` gets no bad frequency, whatever
lines the devices raise in whatever order: between the handlers no line is in service, the processor
gets the vector of the first of the timer, the keyboard, the clock and the mouse that asks, and gets
none if none of them does, and a device asks until its own handler runs. -/
theorem served_of_reach (m : Machine) (h : (controllerLTS m).Reach EventSafe s) :
    s.chips.pics.master.isr = 0 ∧ s.chips.pics.slave.isr = 0 ∧
    s.chips.pics.accept.map Prod.fst
      = (devices.find? fun i => s.chips.pics.requested (irqLine i)).map Irq.vector ∧
    ∀ e s', EventSafe s e → (controllerLTS m).step s e s' →
      ∀ i, s.chips.pics.requested (irqLine i) →
        (∃ o, e = .op o ∧ o.irq = some i) ∨ s'.chips.pics.requested (irqLine i) := by
  obtain ⟨hpic, irr, irr', h2, hchips⟩ := idle_of_reach h
  refine ⟨by rw [hchips]; rfl, by rw [hchips]; rfl, ?_, fun e s' hsafe hst i hi => ?_⟩
  · rw [hchips, accept_running h2, Option.map_map]
    rfl
  cases e with
  | request line =>
    obtain ⟨-, -, rfl⟩ := hst
    exact .inr (Pic8259.Pair.requested_request hi line)
  | op o =>
    obtain ⟨-, hchips'⟩ := chips_of_op h2 hpic hchips hsafe hst
    rw [hchips] at hi
    rw [hchips']
    cases ho : o.irq with
    | none => exact .inr hi
    | some j =>
      by_cases hij : i = j
      · exact .inl ⟨o, rfl, by rw [ho, hij]⟩
      · exact .inr (requested_of_op hij hi)
  | afterHalt =>
    change s' = _ at hst
    subst hst
    right
    rw [hchips] at hi
    show ((endCalls pitIrqLine).foldl PicCall.run s.chips).pics.requested (irqLine i)
    rw [hchips, endCalls_running]
    exact hi

/-- The mouse has moved, and then a key is pressed. -/
def sampleAsked : IrqState where
  devs := sampleDevs
  chips :=
    let chips := Controllers.running entryPic 0 0 0 0
    { chips with pics := (chips.pics.request mouseIrqLine).request kbIrqLine }

/-- The key comes first, and the mouse waits. -/
theorem served_of_reach_sample : (controllerLTS sampleMachine).Reach EventSafe sampleAsked ∧
    sampleAsked.chips.pics.accept.map Prod.fst = some 33 ∧
    sampleAsked.chips.pics.requested mouseIrqLine := by
  have hreach : (controllerLTS sampleMachine).Reach EventSafe sampleAsked := by
    refine .step (a := .request kbIrqLine) (.step (a := .request mouseIrqLine)
      (.init (s := ⟨sampleDevs, .running entryPic 0 0 0 0⟩) ⟨⟨_, _, rfl⟩, ?_⟩) trivial
      ⟨by decide, by decide, rfl⟩) trivial ⟨by decide, by decide, rfl⟩
    exact ⟨.running entryPic 0 0 0 0, (boot_chips _).symm⟩
  obtain ⟨-, -, hvector, -⟩ := served_of_reach sampleMachine hreach
  refine ⟨hreach, hvector.trans ?_, rfl⟩
  decide

end HieUnix
