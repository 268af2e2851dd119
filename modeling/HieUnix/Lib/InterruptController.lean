import HieUnix.Lib.Memory

/-!
# A pair of 8259A interrupt controllers

A controller latches the requests of its eight lines, leaves out those that are masked, and passes
on the one with the lowest number, unless an interrupt of that or a lower number is in service. The
second controller of a pair is wired to a line of the first. The processor writes commands and data
to two ports of each.

Left out are the commands for other orders of priority, for polling and for reading a register.
-/

namespace Pic8259

/-- The words of the initialisation that a controller waits for. -/
inductive Phase
  | icw2 (single fourth : Bool)
  | icw3 (fourth : Bool)
  | icw4
  | ready
deriving DecidableEq, Repr

/-- A controller: its requests, what is in service, its mask, the first of its vectors, the word for
the wiring, and whether it takes an interrupt as served when it is accepted. -/
structure Chip where
  irr : BitVec 8
  isr : BitVec 8
  imr : BitVec 8
  base : BitVec 8
  links : BitVec 8
  autoEoi : Bool
  phase : Phase
deriving DecidableEq, Repr

namespace Chip

/-- A byte at the first port: the start of an initialisation, or the end of an interrupt, of the
line it names or of the one in service. -/
def command (c : Chip) (v : BitVec 8) : Chip :=
  if v.getLsbD 4 then
    { c with
      irr := 0, isr := 0, imr := 0, autoEoi := false
      phase := .icw2 (v.getLsbD 1) (v.getLsbD 0) }
  else if v.getLsbD 3 then c
  else if v.extractLsb' 5 3 = 3 then
    { c with isr := c.isr &&& ~~~((1 : BitVec 8) <<< (v.extractLsb' 0 3).toNat) }
  else if v.extractLsb' 5 3 = 1 then { c with isr := c.isr &&& (c.isr - 1) }
  else c

/-- A byte at the second port: the rest of an initialisation, or the mask. -/
def data (c : Chip) (v : BitVec 8) : Chip :=
  match c.phase with
  | .icw2 single fourth =>
    { c with
      base := v &&& 0xF8
      phase := if single then (if fourth then .icw4 else .ready) else .icw3 fourth }
  | .icw3 fourth => { c with links := v, phase := if fourth then .icw4 else .ready }
  | .icw4 => { c with autoEoi := v.getLsbD 1, phase := .ready }
  | .ready => { c with imr := v }

/-- A device raises a line. -/
def request (c : Chip) (n : ℕ) : Chip := { c with irr := c.irr ||| (1 : BitVec 8) <<< n }

/-- The line that is passed on: the first that is requested or in service, if it is requested
only. -/
def next (lines isr : BitVec 8) : Option ℕ :=
  ((List.range 8).find? fun n => lines.getLsbD n || isr.getLsbD n).filter fun n => !isr.getLsbD n

/-- The line that the controller passes on when `irr` is requested. -/
def pending (c : Chip) (irr : BitVec 8) : Option ℕ := next (irr &&& ~~~c.imr) c.isr

/-- The processor takes the interrupt of a line. -/
def take (c : Chip) (n : ℕ) : Chip :=
  { c with
    irr := c.irr &&& ~~~((1 : BitVec 8) <<< n)
    isr := if c.autoEoi then c.isr else c.isr ||| (1 : BitVec 8) <<< n }

end Chip

/-- Two controllers, the second of them wired to line 2 of the first. -/
structure Pair where
  master : Chip
  slave : Chip
deriving DecidableEq, Repr

namespace Pair

/-- A byte at a port. -/
def outb (p : Pair) (v : BitVec 8) (port : BitVec 16) : Pair :=
  if port = 0x20 then { p with master := p.master.command v }
  else if port = 0x21 then { p with master := p.master.data v }
  else if port = 0xA0 then { p with slave := p.slave.command v }
  else if port = 0xA1 then { p with slave := p.slave.data v }
  else p

/-- A device raises one of the sixteen lines. -/
def request (p : Pair) (line : ℕ) : Pair :=
  if line < 8 then { p with master := p.master.request line }
  else { p with slave := p.slave.request (line - 8) }

/-- Whether a line is raised. -/
def requested (p : Pair) (line : ℕ) : Bool :=
  if line < 8 then p.master.irr.getLsbD line else p.slave.irr.getLsbD (line - 8)

/-- The requests of the first controller, with that of the second. -/
def masterIrr (p : Pair) : BitVec 8 :=
  if (p.slave.pending p.slave.irr).isSome then p.master.irr ||| 4 else p.master.irr

/-- The processor takes an interrupt: the vector that it gets. The second controller names the
vector when its line is passed on and it has been told to answer for it. -/
def accept (p : Pair) : Option (BitVec 8 × Pair) :=
  (p.master.pending p.masterIrr).bind fun n =>
    if p.master.links.getLsbD n then
      if (p.slave.links.extractLsb' 0 3).toNat = n then
        (p.slave.pending p.slave.irr).map fun k =>
          (p.slave.base + BitVec.ofNat 8 k, { master := p.master.take n, slave := p.slave.take k })
      else none
    else some (p.master.base + BitVec.ofNat 8 n, { p with master := p.master.take n })

end Pair

/-! ## No line in service -/

variable {c : Chip} {p : Pair} {n : ℕ}

/-- With nothing in service the first request is passed on. -/
theorem Chip.pending_of_idle (h : c.isr = 0) (irr : BitVec 8) :
    c.pending irr = (List.range 8).find? fun n => irr.getLsbD n && !c.imr.getLsbD n := by
  have hbits : ∀ n, ((irr &&& ~~~c.imr).getLsbD n || (0 : BitVec 8).getLsbD n)
      = (irr.getLsbD n && !c.imr.getLsbD n) := by
    intro n
    by_cases hn : n < 8
    · simp [hn]
    · rw [BitVec.getLsbD_and, BitVec.getLsbD_of_ge irr n (Nat.le_of_not_lt hn)]
      simp
  have hidle : (fun n => !(0 : BitVec 8).getLsbD n) = fun _ => true := by
    funext n
    simp
  rw [pending, next, h, funext hbits, hidle]
  cases (List.range 8).find? fun n => irr.getLsbD n && !c.imr.getLsbD n with
  | none => rfl
  | some n => rfl

/-- A specific end of interrupt: line `n` is no longer in service. -/
theorem Chip.command_eoi (c : Chip) (hn : n < 8) :
    c.command (0x60 ||| BitVec.ofNat 8 n)
      = { c with isr := c.isr &&& ~~~((1 : BitVec 8) <<< n) } := by
  have hbits : ∀ n < 8, (0x60 ||| BitVec.ofNat 8 n).getLsbD 4 = false ∧
      (0x60 ||| BitVec.ofNat 8 n).getLsbD 3 = false ∧
      (0x60 ||| BitVec.ofNat 8 n).extractLsb' 5 3 = 3 ∧
      ((0x60 ||| BitVec.ofNat 8 n).extractLsb' 0 3).toNat = n := by
    decide
  obtain ⟨h4, h3, h5, h0⟩ := hbits n hn
  rw [command, h4, h3, if_neg Bool.false_ne_true, if_neg Bool.false_ne_true, if_pos h5, h0]

/-- A request stays. -/
theorem Pair.requested_request {line : ℕ} (h : p.requested line) (n : ℕ) :
    (p.request n).requested line := by
  unfold requested at h ⊢
  unfold request Chip.request
  split_ifs at h ⊢ <;> simp_all

end Pic8259
