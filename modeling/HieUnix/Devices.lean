import HieUnix.LibC

/-!
# The terminal and the real-time clock

The `read`, `write`, `open` and `close` functions of `terminal.c` and `rtc.c` that the operation
tables name, with the globals and the ports they use. The two functions that wait are given from
the moment their wait is over: `terminal_read` finds the console as it is when `enter_flag` is set,
and `rtc_read` returns when the interrupt has come.
-/

namespace HieUnix

open Function

/-! ## The interrupt controller -/

/-- The two masks of `i8259.c`, and the mask registers they are written to. -/
structure Pic where
  masterMask : Byte
  slaveMask : Byte
  masterImr : Byte
  slaveImr : Byte
deriving DecidableEq, Repr

/-- `enable_irq`. -/
def enableIrq (pic : Pic) (irqNum : ℕ) : Pic :=
  if irqNum < 8 then
    let mask := pic.masterMask &&& ~~~((1 : Byte) <<< irqNum)
    { pic with masterMask := mask, masterImr := mask }
  else if irqNum < 16 then
    let mask := pic.slaveMask &&& ~~~((1 : Byte) <<< (irqNum - 8))
    { pic with slaveMask := mask, slaveImr := mask }
  else pic

/-- `disable_irq`. -/
def disableIrq (pic : Pic) (irqNum : ℕ) : Pic :=
  if irqNum < 8 then
    let mask := pic.masterMask ||| ((1 : Byte) <<< irqNum)
    { pic with masterMask := mask, masterImr := mask }
  else if irqNum < 16 then
    let mask := pic.slaveMask ||| ((1 : Byte) <<< (irqNum - 8))
    { pic with slaveMask := mask, slaveImr := mask }
  else pic

/-- `send_eoi`, which masks the line first. The commands it sends are left out. -/
def sendEoi (pic : Pic) (irqNum : ℕ) : Pic := disableIrq pic irqNum

/-! ## The real-time clock -/

/-- `RTC_IRQ_LINE`. -/
abbrev rtcIrqLine : ℕ := 8
/-- `PIE`. -/
abbrev pie : Byte := 0x40
/-- `TWO_HERTZ_RATE`. -/
abbrev twoHertzRate : Byte := 0x0F
/-- `MAX_FREQUENCY`. -/
abbrev maxFrequency : Word := 1024
/-- `MIN_FREQUENCY`. -/
abbrev minFrequency : Word := 2
/-- `LOG_FREQ_OFFSET`. -/
abbrev logFreqOffset : Byte := 16
/-- `FREQ_BITMASK`. -/
abbrev freqBitmask : Byte := 0xF0

/-- The registers A and B of the clock, the flag `RTC_INT_OCCURED`, and the interrupt controller. -/
structure Rtc where
  regA : Byte
  regB : Byte
  intOccured : Bool
  pic : Pic
deriving DecidableEq, Repr

/-- `init_rtc`. -/
def initRtc (rtc : Rtc) : Rtc := { rtc with regB := rtc.regB ||| pie }

/-- `rtc_open`, on a descriptor that is not null. -/
def rtcOpen (_ : Fd) (rtc : Rtc) : Word × Fd × Rtc :=
  let rtc := { rtc with pic := disableIrq rtc.pic rtcIrqLine }
  let rtc := initRtc rtc
  let rtc := { rtc with regA := rtc.regA ||| twoHertzRate }
  let rtc := { rtc with pic := enableIrq rtc.pic rtcIrqLine }
  (0, { fopsP := some .rtcFops, inodeP := 0, filePos := 0, flags := 1 }, rtc)

/-- `rtc_read`, whose loop ends when the flag is 0. -/
def rtcRead (rtc : Rtc) : Word × Rtc := (0, { rtc with intOccured := false })

/-- The loop of `rtc_write` that takes the logarithm, over at most `fuel` halvings. -/
def rtcLogLoop : ℕ → Word → Byte → Byte
  | 0, _, i => i
  | fuel + 1, frequency, i =>
    if frequency ≠ 1 then rtcLogLoop fuel (frequency / 2) (i + 1) else i

/-- `rtc_write`. The frequency is the first byte of the buffer, so that 8 halvings are enough. -/
def rtcWrite (rtc : Rtc) (mem : Memory) (buf : Word) : Word × Rtc :=
  if buf = 0 then (error, rtc)
  else
    let frequency : Word := (mem buf).setWidth 32
    let rtc := { rtc with pic := disableIrq rtc.pic rtcIrqLine }
    if maxFrequency < frequency ∨ frequency < minFrequency then (error, rtc)
    else if frequency &&& (frequency - 1) ≠ 0 then (error, rtc)
    else
      let rate := logFreqOffset - rtcLogLoop 8 frequency 0
      let rtc := { rtc with regA := (rtc.regA &&& freqBitmask) ||| rate }
      (0, { rtc with pic := enableIrq rtc.pic rtcIrqLine })

/-- `rtc_close`, on a descriptor that is not null. -/
def rtcClose (_ : Fd) : Word × Fd := (0, Fd.closed)

/-! ## The terminal -/

/-- The globals that `terminal_read` and `terminal_write` use. `written` is what was passed to
`terminal_putc`. -/
structure Console where
  enterFlag : Term → Byte
  enterBuffer : ℕ → Byte
  inputBuffer : Term → ℕ → Byte
  currBuffPos : Term → ℕ
  mouseCommand : ℕ → Byte
  currentActiveTerminal : Term
  written : List Byte

/-- The copy loop of `terminal_read` from `i` on: where it stops, and the memory then. -/
def terminalReadLoop (enterBuffer : ℕ → Byte) (buf : Word) : ℕ → ℕ → Memory → ℕ × Memory
  | 0, i, mem => (i, mem)
  | fuel + 1, i, mem =>
    let mem := mem.store8 (buf + BitVec.ofNat 32 i) (enterBuffer i)
    if enterBuffer i = 0 then (i, mem) else terminalReadLoop enterBuffer buf fuel (i + 1) mem

/-- Whether a mouse click is pending: the string in `mouse_command` is not empty. -/
def Console.MousePending (con : Console) : Prop :=
  strncmp con.mouseCommand (cstr []) fnameSize ≠ 0

instance (con : Console) : Decidable con.MousePending := inferInstanceAs (Decidable (_ ≠ _))

/-- `cnt` of `terminal_read`: how many bytes it copies at most. -/
def readCount (nbytes : Word) : ℕ :=
  if BitVec.ofNat 32 maxBufferSize < nbytes then maxBufferSize else nbytes.toNat

/-- `terminal_read`, of a process of terminal `termNum`. -/
def terminalRead (con : Console) (termNum : Term) (mem : Memory) (buf nbytes : Word) :
    Word × Console × Memory :=
  if buf = 0 then (error, con, mem)
  else if con.MousePending then
    let mem := mem.patch buf 0 fnameSize con.mouseCommand
    let con := { con with
      mouseCommand := strncpy con.mouseCommand (cstr []) fnameSize
      enterFlag := update con.enterFlag termNum 0
      currBuffPos := update con.currBuffPos con.currentActiveTerminal 0
      inputBuffer := update con.inputBuffer con.currentActiveTerminal fun _ => 0 }
    (BitVec.ofNat 32 fnameSize, con, mem)
  else
    let con := { con with enterFlag := update con.enterFlag termNum 0 }
    let (i, mem) := terminalReadLoop con.enterBuffer buf (readCount nbytes) 0 mem
    (BitVec.ofNat 32 (i + 1), con, mem.store8 (buf + BitVec.ofNat 32 i) (chr '\n'))

/-- `terminal_write`. -/
def terminalWrite (con : Console) (mem : Memory) (buf nbytes : Word) : Word × Console :=
  if buf = 0 then (error, con)
  else (nbytes, { con with written := con.written ++ mem.bytes buf nbytes.toNat })

/-- `terminal_close`. -/
def terminalClose : Word := 0

end HieUnix
