import HieUnix.Interrupts

/-!
# The rate and the ticks of the clock (`rtc.c`)

Programs pass a frequency of four bytes to `rtc_write`, which reads the first one only: a frequency
from 256 on is taken for what it is modulo 256 (`setsRate_iff`).

`rtc_read` waits on one flag for all processes. Each reader sets it when it starts to wait, so that
one that starts after an interrupt takes the tick away from those that have not looked at the flag
since (`tickKept_of_safe`). Where none does, and no bad frequency has left the line of the clock
masked, each wait ends (`linesOpen_of_safe`).
-/

namespace HieUnix

open Function

/-! ## The rate -/

/-- A power of two from `MIN_FREQUENCY` to `MAX_FREQUENCY`. -/
def GoodRate (frequency : Word) : Prop := ∃ n ≤ 10, 0 < n ∧ frequency.toNat = 2 ^ n

instance (frequency : Word) : Decidable (GoodRate frequency) :=
  inferInstanceAs (Decidable (∃ n ≤ 10, 0 < n ∧ frequency.toNat = 2 ^ n))

/-- Register A with the high four bits of `old` and the low four bits `rate`. -/
structure HasRate (old new rate : Byte) : Prop where
  rate_lt : rate.toNat < 16
  high : ∀ i, 4 ≤ i → i < 8 → new.getLsbD i = old.getLsbD i
  low : ∀ i < 4, new.getLsbD i = rate.getLsbD i

/-- `rtc_write` of the frequency in the four bytes of the buffer: a good one is set, in the low four
bits of register A, and any other is turned away. -/
structure SetsRate (rtc : Rtc) (mem : Memory) (buf : Word) : Prop where
  accepts : (rtcWrite rtc mem buf).1 = 0 ↔ GoodRate (mem.load32 buf)
  sets : GoodRate (mem.load32 buf) → ∃ rate,
    HasRate rtc.regA (rtcWrite rtc mem buf).2.regA rate ∧ 1 ≤ rate.toNat ∧
      (32768 : Word) >>> (rate.toNat - 1) = mem.load32 buf
  rejects : ¬ GoodRate (mem.load32 buf) →
    (rtcWrite rtc mem buf).1 = error ∧ (rtcWrite rtc mem buf).2.regA = rtc.regA

variable {rtc : Rtc} {mem : Memory} {buf : Word}

/-- The rate that `rtc_write` computes from the first byte. -/
def rateOf (frequency : Byte) : Byte := logFreqOffset - rtcLogLoop 8 (frequency.setWidth 32) 0

/-- The rate of a good frequency is right. -/
theorem rateOf_spec : ∀ frequency : Byte, GoodFrequency frequency →
    (rateOf frequency).toNat < 16 ∧ 1 ≤ (rateOf frequency).toNat ∧
      (32768 : Word) >>> ((rateOf frequency).toNat - 1) = frequency.setWidth 32 := by
  decide

/-- The two masks of `rtc_write` put four bits of each together. -/
theorem hasRate_or (old : Byte) {rate : Byte} (h : rate.toNat < 16) :
    HasRate old ((old &&& freqBitmask) ||| rate) rate := by
  have hmask : ∀ i < 8, freqBitmask.getLsbD i = decide (4 ≤ i) := by decide
  refine ⟨h, ?_, ?_⟩
  · intro i h4 h8
    have hhigh : rate.getLsbD i = false := by
      have hpow : 2 ^ 4 ≤ 2 ^ i := Nat.pow_le_pow_right (by decide) h4
      rw [← BitVec.testBit_toNat]
      exact Nat.testBit_lt_two_pow (Nat.lt_of_lt_of_le h hpow)
    rw [BitVec.getLsbD_or, BitVec.getLsbD_and, hmask i h8, hhigh]
    simp [h4]
  · intro i h4
    rw [BitVec.getLsbD_or, BitVec.getLsbD_and, hmask i (by omega)]
    simp [Nat.not_le.mpr h4]

/-- A good first byte is set. -/
theorem rtcWrite_of_good (hbuf : buf ≠ 0) (hgood : GoodFrequency (mem buf)) (rtc : Rtc) :
    (rtcWrite rtc mem buf).1 = 0 ∧
      (rtcWrite rtc mem buf).2.regA = (rtc.regA &&& freqBitmask) ||| rateOf (mem buf) := by
  obtain ⟨hrange, hpower⟩ := (goodFrequency_iff (mem buf)).mp hgood
  rw [rtcWrite, if_neg hbuf]
  dsimp only
  rw [if_neg hrange, if_neg (not_not_intro hpower)]
  exact ⟨rfl, rfl⟩

/-- Any other first byte is turned away. -/
theorem rtcWrite_of_bad (hbuf : buf ≠ 0) (hbad : ¬ GoodFrequency (mem buf)) (rtc : Rtc) :
    (rtcWrite rtc mem buf).1 = error ∧ (rtcWrite rtc mem buf).2.regA = rtc.regA := by
  rw [goodFrequency_iff] at hbad
  rw [rtcWrite, if_neg hbuf]
  dsimp only
  by_cases hrange : maxFrequency < (mem buf).setWidth 32 ∨ (mem buf).setWidth 32 < minFrequency
  · rw [if_pos hrange]
    exact ⟨rfl, rfl⟩
  · rw [if_neg hrange, if_pos fun hpower => hbad ⟨hrange, hpower⟩]
    exact ⟨rfl, rfl⟩

theorem setWidth_load32 (mem : Memory) (buf : Word) : (mem.load32 buf).setWidth 8 = mem buf := by
  rw [Memory.load32]
  ext i hi
  rw [BitVec.getElem_setWidth, BitVec.getLsbD_append, if_pos hi, BitVec.getLsbD_eq_getElem hi]

/-- Below 256 the frequency is its first byte. -/
theorem load32_of_lt (h : (mem.load32 buf).toNat < 256) :
    mem.load32 buf = (mem buf).setWidth 32 := by
  rw [← setWidth_load32 mem buf]
  apply BitVec.eq_of_toNat_eq
  rw [BitVec.toNat_setWidth, BitVec.toNat_setWidth]
  omega

theorem goodRate_setWidth : ∀ frequency : Byte,
    GoodRate (frequency.setWidth 32) ↔ GoodFrequency frequency := by
  decide

/-- A good rate from 256 on has no first byte. -/
theorem byte_of_goodRate (h : GoodRate (mem.load32 buf)) (hge : 256 ≤ (mem.load32 buf).toNat) :
    mem buf = 0 := by
  obtain ⟨n, hn, -, hpow⟩ := h
  rw [← setWidth_load32 mem buf]
  apply BitVec.eq_of_toNat_eq
  rw [BitVec.toNat_setWidth, hpow]
  rw [hpow] at hge
  have hcases : ∀ n ≤ 10, 256 ≤ 2 ^ n → 2 ^ n % 2 ^ 8 = 0 := by decide
  exact hcases n hn hge

/-- **`rtc_write` sets the rate** when the frequency is below 256, or neither it nor its first byte
is good. -/
theorem setsRate_iff (rtc : Rtc) (mem : Memory) (hbuf : buf ≠ 0) :
    SetsRate rtc mem buf ↔ (mem.load32 buf).toNat < 256 ∨
      ¬ GoodRate (mem.load32 buf) ∧ ¬ GoodFrequency ((mem.load32 buf).setWidth 8) := by
  have herr : (error : Word) ≠ 0 := by decide
  rw [setWidth_load32]
  -- `rtc_write` decides by the first byte
  by_cases hgood : GoodFrequency (mem buf)
  · obtain ⟨hret, hreg⟩ := rtcWrite_of_good hbuf hgood rtc
    obtain ⟨hlt, hpos, hshift⟩ := rateOf_spec (mem buf) hgood
    constructor
    · intro h
      by_contra hno
      -- a good rate from 256 on would have the first byte 0
      have hge : 256 ≤ (mem.load32 buf).toNat := by omega
      rw [byte_of_goodRate (h.accepts.mp hret) hge] at hgood
      exact absurd hgood (by decide)
    · rintro (hsmall | ⟨-, hbad⟩)
      · have hrate : GoodRate (mem.load32 buf) := by
          rw [load32_of_lt hsmall]
          exact (goodRate_setWidth _).mpr hgood
        refine ⟨iff_of_true hret hrate, fun _ => ⟨rateOf (mem buf), ?_, hpos, ?_⟩,
          fun hno => absurd hrate hno⟩
        · rw [hreg]
          exact hasRate_or rtc.regA hlt
        · rw [hshift, load32_of_lt hsmall]
      · exact absurd hgood hbad
  · obtain ⟨hret, hreg⟩ := rtcWrite_of_bad hbuf hgood rtc
    have hne : (rtcWrite rtc mem buf).1 ≠ 0 := by
      rw [hret]
      exact herr
    constructor
    · intro h
      exact .inr ⟨fun hrate => hne (h.accepts.mpr hrate), hgood⟩
    · intro h
      have hrate : ¬ GoodRate (mem.load32 buf) := by
        rcases h with hsmall | ⟨hrate, -⟩
        · rw [load32_of_lt hsmall, goodRate_setWidth]
          exact hgood
        · exact hrate
      exact ⟨iff_of_false hne hrate, fun h => absurd h hrate, fun _ => ⟨hret, hreg⟩⟩

/-- The clock at boot, and memory with a frequency at 0x8048000. -/
def sampleRtc : Rtc := ⟨0x26, 0, true, entryPic⟩

def sampleFrequency (frequency : Word) : Memory :=
  Memory.store32 (fun _ => 0) 0x8048000 frequency

/-- The frequency 32 is set. -/
theorem setsRate_iff_sample : SetsRate sampleRtc (sampleFrequency 32) 0x8048000 :=
  (setsRate_iff sampleRtc _ (by decide)).mpr (.inl (by decide))

/-- The greatest frequency, 1024, is turned away. -/
theorem not_setsRate_max : ¬ SetsRate sampleRtc (sampleFrequency 1024) 0x8048000 := by
  have hload : (sampleFrequency 1024).load32 0x8048000 = 1024 := Memory.load32_store32_self _ _ _
  intro h
  have haccepts := h.accepts
  rw [hload] at haccepts
  exact absurd (haccepts.mpr ⟨10, by decide, by decide, rfl⟩) (by decide)

/-! ## The ticks -/

/-- Where a process is in `rtc_read`: not in it, in its loop, or past it. -/
inductive ReaderPc
  | outside
  | waiting
  | past
deriving DecidableEq, Repr

/-- The clock, and the processes that may read it. -/
structure Readers (Proc : Type) where
  rtc : Rtc
  pc : Proc → ReaderPc

/-- A step of `rtc_read` in one process, or an interrupt of the clock. -/
inductive ReaderOp (Proc : Type)
  | start (p : Proc)
  | test (p : Proc)
  | ret (p : Proc)
  | interrupt

variable {Proc : Type} [DecidableEq Proc]

/-- When a step can be taken. -/
def ReaderOp.Enabled (s : Readers Proc) : ReaderOp Proc → Prop
  | .start p => s.pc p = .outside
  | .test p => s.pc p = .waiting
  | .ret p => s.pc p = .past
  | .interrupt => True

/-- The effect of a step: `RTC_INT_OCCURED = 1`, `while(RTC_INT_OCCURED == 1)`, `return 0`, and
`do_handle_rtc`. -/
def ReaderOp.run (s : Readers Proc) : ReaderOp Proc → Readers Proc
  | .start p => ⟨rtcReadStart s.rtc, update s.pc p .waiting⟩
  | .test p => if s.rtc.intOccured then s else { s with pc := update s.pc p .past }
  | .ret p => { s with pc := update s.pc p .outside }
  | .interrupt => { s with rtc := doHandleRtc s.rtc }

/-- The runs of the readers. -/
def readersLTS (Proc : Type) [DecidableEq Proc] : LTS (Readers Proc) (ReaderOp Proc) where
  init s := ∀ p, s.pc p = .outside
  step s op s' := op.Enabled s ∧ s' = op.run s

/-- What has happened: which processes have been waiting at an interrupt since which they have not
tested the flag, and whether a process has started to read since the last interrupt. -/
structure Ticks (Proc : Type) where
  ticked : Proc → Bool
  started : Bool

/-- The record after a step. -/
def recordTick (s : Readers Proc) (op : ReaderOp Proc) (_ : Readers Proc) (h : Ticks Proc) :
    Ticks Proc :=
  match op with
  | .start p => ⟨update h.ticked p false, true⟩
  | .test p => { h with ticked := update h.ticked p false }
  | .ret _ => h
  | .interrupt => ⟨fun p => s.pc p = .waiting, false⟩

/-- The runs of the readers with the record. -/
def tickLTS (Proc : Type) [DecidableEq Proc] : LTS (Readers Proc × Ticks Proc) (ReaderOp Proc) :=
  (readersLTS Proc).history (fun _ => ⟨fun _ => false, false⟩) recordTick

/-- The next test of the flag by process `p` ends its loop. -/
def Returns (s : Readers Proc) (p : Proc) : Prop := ((ReaderOp.test p).run s).pc p = .past

/-- No process starts to read while another one has a tick that it has not seen. -/
def StartsAlone (q : Readers Proc × Ticks Proc) : ReaderOp Proc → Prop
  | .start _ => ∀ p, q.2.ticked p = false
  | _ => True

variable {q q' : Readers Proc × Ticks Proc} {op : ReaderOp Proc} {s : Readers Proc} {p : Proc}

/-- A test ends the loop when the flag is 0. -/
theorem returns_iff (hp : s.pc p = .waiting) : Returns s p ↔ s.rtc.intOccured = false := by
  rw [Returns, ReaderOp.run]
  cases hflag : s.rtc.intOccured with
  | true =>
    rw [if_pos rfl, hp]
    exact iff_of_false nofun nofun
  | false =>
    rw [if_neg Bool.false_ne_true]
    exact iff_of_true (update_self p _ _) rfl

/-- A process that waits is none that is elsewhere. -/
theorem ne_of_waiting {ι : Type} {pc : ι → ReaderPc} {p r : ι} {x : ReaderPc}
    (hp : pc p = .waiting) (hr : pc r = x) (hx : x ≠ .waiting) : p ≠ r := by
  rintro rfl
  exact hx (hr.symm.trans hp)

/-- Whoever still has a tick is not the one whose tick has been cleared. -/
theorem ticked_of_update {ticked : Proc → Bool} {r : Proc} (h : update ticked r false p = true) :
    p ≠ r ∧ ticked p = true := by
  have hne : p ≠ r := by
    rintro rfl
    rw [update_self] at h
    cases h
  rw [update_of_ne hne] at h
  exact ⟨hne, h⟩

/-- A process with a tick is in its loop, and the flag says whether one has started since. -/
def TickInv (q : Readers Proc × Ticks Proc) : Prop :=
  ∀ p, q.2.ticked p = true → q.1.pc p = .waiting ∧ q.1.rtc.intOccured = q.2.started

/-- Nobody has started to read since a tick that has not been seen. -/
def NoneStarted (q : Readers Proc × Ticks Proc) : Prop :=
  ∀ p, q.2.ticked p = true → q.2.started = false

/-- **One step** of a reader, or an interrupt, keeps the record in line with the flag. -/
theorem TickInv.step (h : TickInv q) (hst : (tickLTS Proc).step q op q') : TickInv q' := by
  obtain ⟨⟨henabled, hrun⟩, hrecord⟩ := hst
  intro p hp
  rw [hrecord] at hp ⊢
  rw [hrun]
  cases op with
  | start r =>
    obtain ⟨hne, hticked⟩ := ticked_of_update hp
    exact ⟨(update_of_ne hne _ _).trans (h p hticked).1, rfl⟩
  | test r =>
    obtain ⟨hne, hticked⟩ := ticked_of_update hp
    obtain ⟨hwait, hflag⟩ := h p hticked
    rw [ReaderOp.run]
    split_ifs
    · exact ⟨hwait, hflag⟩
    · exact ⟨(update_of_ne hne _ _).trans hwait, hflag⟩
  | ret r =>
    obtain ⟨hwait, hflag⟩ := h p hp
    have hne : p ≠ r := ne_of_waiting hwait henabled nofun
    exact ⟨(update_of_ne hne _ _).trans hwait, hflag⟩
  | interrupt => exact ⟨of_decide_eq_true hp, rfl⟩

theorem tickInv_of_reach {ok : Readers Proc × Ticks Proc → ReaderOp Proc → Prop}
    (h : (tickLTS Proc).Reach ok q) : TickInv q := by
  apply h.invariant
  · rintro q ⟨-, hstart⟩ p hp
    rw [hstart] at hp
    cases hp
  · intro q op q' hinv _ hst
    exact hinv.step hst

/-- A process that starts alone starts when no tick is waiting to be seen. -/
theorem NoneStarted.step (h : NoneStarted q) (hok : StartsAlone q op)
    (hst : (tickLTS Proc).step q op q') : NoneStarted q' := by
  obtain ⟨-, hrecord⟩ := hst
  intro p hp
  rw [hrecord] at hp ⊢
  cases op with
  | start r =>
    have hnone : ∀ p, q.2.ticked p = false := hok
    have hticked := (ticked_of_update hp).2
    rw [hnone p] at hticked
    cases hticked
  | test r => exact h p (ticked_of_update hp).2
  | ret r => exact h p hp
  | interrupt => rfl

theorem noneStarted_of_reach (h : (tickLTS Proc).Reach StartsAlone q) : NoneStarted q := by
  apply h.invariant
  · rintro q ⟨-, hstart⟩ p hp
    rw [hstart] at hp
    cases hp
  · intro q op q' hinv hok hst
    exact hinv.step hok hst

/-- **A tick and its readers.** A process that was waiting at an interrupt returns the next time
that it tests the flag, if and only if no process has started to read since the interrupt. So no
tick is lost in a run where none starts while another has a tick that it has not seen. -/
theorem tickKept_of_safe (Proc : Type) [DecidableEq Proc] :
    (∀ q, (tickLTS Proc).Reach LTS.always q → ∀ p, q.2.ticked p = true →
      (Returns q.1 p ↔ q.2.started = false)) ∧
    ∀ q, (tickLTS Proc).Reach StartsAlone q → ∀ p, q.2.ticked p = true → Returns q.1 p := by
  have hexact : ∀ ok q, (tickLTS Proc).Reach ok q → ∀ p, q.2.ticked p = true →
      (Returns q.1 p ↔ q.2.started = false) := by
    intro ok q h p hp
    obtain ⟨hwait, hflag⟩ := tickInv_of_reach h p hp
    rw [returns_iff hwait, hflag]
  refine ⟨hexact LTS.always, ?_⟩
  intro q h p hp
  exact (hexact StartsAlone q h p hp).mpr (noneStarted_of_reach h p hp)

/-- Two processes that do not read the clock yet. -/
def sampleReaders : Readers Bool × Ticks Bool :=
  (⟨sampleRtc, fun _ => .outside⟩, ⟨fun _ => false, false⟩)

/-- The readers and the record after some steps. -/
def readersAfter (q : Readers Bool × Ticks Bool) : List (ReaderOp Bool) → Readers Bool × Ticks Bool
  | [] => q
  | op :: ops => readersAfter (op.run q.1, recordTick q.1 op (op.run q.1) q.2) ops

/-- One process starts to read, the clock interrupts, and the other process starts to read: the
first one does not see the tick. -/
theorem not_returns_sampleReaders :
    ∃ q, (tickLTS Bool).Reach LTS.always q ∧ q.2.ticked false = true ∧ ¬ Returns q.1 false := by
  refine ⟨readersAfter sampleReaders [.start false, .interrupt, .start true], ?_, rfl, ?_⟩
  · have h₀ : (tickLTS Bool).Reach LTS.always sampleReaders := .init ⟨fun _ => rfl, rfl⟩
    have h₁ : (tickLTS Bool).Reach LTS.always (readersAfter sampleReaders [.start false]) :=
      .step (a := .start false) h₀ trivial ⟨⟨rfl, rfl⟩, rfl⟩
    have h₂ : (tickLTS Bool).Reach LTS.always
        (readersAfter sampleReaders [.start false, .interrupt]) :=
      .step (a := .interrupt) h₁ trivial ⟨⟨trivial, rfl⟩, rfl⟩
    exact .step (a := .start true) h₂ trivial ⟨⟨rfl, rfl⟩, rfl⟩
  · rw [returns_iff rfl]
    decide

/-- Two processes start to read, one of them tests the flag in vain, and after the interrupt both
see the tick. -/
theorem tickKept_of_safe_sample :
    ∃ q, (tickLTS Bool).Reach StartsAlone q ∧ Returns q.1 false ∧ Returns q.1 true := by
  obtain ⟨-, hkept⟩ := tickKept_of_safe Bool
  have h₀ : (tickLTS Bool).Reach StartsAlone sampleReaders := .init ⟨fun _ => rfl, rfl⟩
  have h₁ : (tickLTS Bool).Reach StartsAlone (readersAfter sampleReaders [.start false]) :=
    .step (a := .start false) h₀ (fun _ => rfl) ⟨⟨rfl, rfl⟩, rfl⟩
  have h₂ : (tickLTS Bool).Reach StartsAlone
      (readersAfter sampleReaders [.start false, .test false]) :=
    .step (a := .test false) h₁ trivial ⟨⟨rfl, rfl⟩, rfl⟩
  have h₃ : (tickLTS Bool).Reach StartsAlone
      (readersAfter sampleReaders [.start false, .test false, .start true]) :=
    .step (a := .start true) h₂ (by rintro (_ | _) <;> rfl) ⟨⟨rfl, rfl⟩, rfl⟩
  have h₄ : (tickLTS Bool).Reach StartsAlone
      (readersAfter sampleReaders [.start false, .test false, .start true, .interrupt]) :=
    .step (a := .interrupt) h₃ trivial ⟨⟨trivial, rfl⟩, rfl⟩
  exact ⟨_, h₄, hkept _ h₄ false rfl, hkept _ h₄ true rfl⟩

/-! ## Waiting readers among the other devices -/

/-- The devices, and the processes that may read the clock. -/
structure DevReaders (Proc : Type) where
  devs : Devs
  pc : Proc → ReaderPc

/-- What the steps of `rtc_read` see. -/
def DevReaders.readers (w : DevReaders Proc) : Readers Proc := ⟨w.devs.rtc, w.pc⟩

/-- The devices and the processes after a step of `rtc_read`. -/
def DevReaders.setReaders (w : DevReaders Proc) (s : Readers Proc) : DevReaders Proc :=
  ⟨w.devs.setRtc s.rtc, s.pc⟩

/-- A step of `rtc_read` or the interrupt of the clock, or another handler or call. -/
inductive WaitOp (Proc : Type)
  | reader (op : ReaderOp Proc)
  | other (op : IrqOp)

/-- The runs of the handlers and the calls in which `rtc_read` is taken step by step. -/
def waitsLTS (m : Machine) (Proc : Type) [DecidableEq Proc] :
    LTS (DevReaders Proc) (WaitOp Proc) where
  init w := (irqLTS m).init w.devs ∧ ∀ p, w.pc p = .outside
  step
    | w, .reader op, w' => op.Enabled w.readers ∧ w' = w.setReaders (op.run w.readers)
    | w, .other op, w' =>
      (op ≠ .rtcRead ∧ op ≠ .rtc) ∧ op.run m w.devs = some w'.devs ∧ w'.pc = w.pc

/-- The record of the ticks after a step. -/
def recordWait (w : DevReaders Proc) (op : WaitOp Proc) (w' : DevReaders Proc) (h : Ticks Proc) :
    Ticks Proc :=
  match op with
  | .reader op => recordTick w.readers op w'.readers h
  | .other _ => h

/-- The runs of the handlers and the calls with the record. -/
def waitTicksLTS (m : Machine) (Proc : Type) [DecidableEq Proc] :
    LTS (DevReaders Proc × Ticks Proc) (WaitOp Proc) :=
  (waitsLTS m Proc).history (fun _ => ⟨fun _ => false, false⟩) recordWait

/-- No `rtc_write` gets a bad frequency, and no process starts to read while another one has a tick
that it has not seen. -/
def WaitSafe (q : DevReaders Proc × Ticks Proc) : WaitOp Proc → Prop
  | .reader op => StartsAlone (q.1.readers, q.2) op
  | .other op => MasksSafe q.1.devs op

/-- The clock keeps ticking, and the scheduler keeps coming back to process `p`: an interrupt that
the controllers pass on for ever is handled, and a process that waits for ever tests the flag. -/
structure WaitFair {m : Machine} {ok : DevReaders Proc × Ticks Proc → WaitOp Proc → Prop}
    (E : (waitTicksLTS m Proc).Exec ok) (p : Proc) : Prop where
  clock : ∀ n, (∀ n', n ≤ n' → (E.state n').1.devs.tty.pic.Delivers rtcIrqLine) →
    ∃ n', n ≤ n' ∧ E.label n' = .reader .interrupt
  tests : ∀ n, (∀ n', n ≤ n' → (E.state n').1.pc p = .waiting) →
    ∃ n', n ≤ n' ∧ E.label n' = .reader (.test p)

variable {m : Machine} {w w' : DevReaders Proc × Ticks Proc} {a : WaitOp Proc}

/-- A step of a reader among the devices is a step of the readers. -/
theorem tickLTS_step {op : ReaderOp Proc} (hst : (waitTicksLTS m Proc).step w (.reader op) w') :
    (tickLTS Proc).step (w.1.readers, w.2) op (w'.1.readers, w'.2) := by
  obtain ⟨⟨henabled, hrun⟩, hrecord⟩ := hst
  have hreaders : w'.1.readers = op.run w.1.readers := by
    rw [hrun]
    rfl
  exact ⟨⟨henabled, hreaders⟩, hrecord⟩

/-- The steps of `rtc_read` leave the masks alone, and the handler of the clock restores them. -/
theorem ReaderOp.run_pic {s : Readers Proc} (h : s.rtc.pic = entryPic) (op : ReaderOp Proc) :
    (op.run s).rtc.pic = entryPic := by
  cases op with
  | start p => exact h
  | test p =>
    rw [ReaderOp.run]
    split_ifs <;> exact h
  | ret p => exact h
  | interrupt =>
    show enableIrq (sendEoi (disableIrq s.rtc.pic rtcIrqLine) rtcIrqLine) rtcIrqLine = entryPic
    rw [h]
    exact (entryPic_enable (by decide)).2

/-- What holds after every step of a safe run: the masks are those of `entry`, and the flag is in
line with the record. -/
structure WaitInv (w : DevReaders Proc × Ticks Proc) : Prop where
  pic : w.1.devs.tty.pic = entryPic
  ticks : TickInv (w.1.readers, w.2)
  alone : NoneStarted (w.1.readers, w.2)

/-- **One step** of a safe run. -/
theorem WaitInv.step (h : WaitInv w) (hok : WaitSafe w a)
    (hst : (waitTicksLTS m Proc).step w a w') : WaitInv w' := by
  cases a with
  | reader op =>
    have hstep := tickLTS_step hst
    refine ⟨?_, h.ticks.step hstep, h.alone.step hok hstep⟩
    obtain ⟨⟨-, hrun⟩, -⟩ := hst
    rw [hrun]
    exact ReaderOp.run_pic h.pic op
  | other op =>
    obtain ⟨⟨⟨hread, hrtc⟩, hrun, hpc⟩, hrecord⟩ := hst
    have hflag : w'.1.devs.intOccured = w.1.devs.intOccured := IrqOp.run_intOccured hrun hread hrtc
    have hrecord' : w'.2 = w.2 := hrecord
    refine ⟨(IrqOp.run_pic h.pic hrun).mpr hok, ?_, ?_⟩
    · intro p hp
      rw [hrecord'] at hp
      obtain ⟨hwait, hseen⟩ := h.ticks p hp
      show w'.1.pc p = .waiting ∧ w'.1.devs.intOccured = w'.2.started
      rw [hpc, hflag, hrecord']
      exact ⟨hwait, hseen⟩
    · intro p hp
      rw [hrecord'] at hp ⊢
      exact h.alone p hp

theorem waitInv_of_reach (h : (waitTicksLTS m Proc).Reach WaitSafe w) : WaitInv w := by
  apply h.invariant
  · rintro w ⟨⟨⟨mem, banner, htty⟩, -⟩, hstart⟩
    refine ⟨?_, ?_, ?_⟩
    · rw [htty]
      rfl
    · intro p hp
      rw [show w.2 = _ from hstart] at hp
      cases hp
    · intro p hp
      rw [show w.2 = _ from hstart] at hp
      cases hp
  · intro w a w' hinv hok hst
    exact hinv.step hok hst

/-- A process that waits goes on waiting until its loop ends. -/
theorem pc_of_waiting (hst : (waitTicksLTS m Proc).step w a w') (hp : w.1.pc p = .waiting) :
    w'.1.pc p = .waiting ∨ w'.1.pc p = .past := by
  cases a with
  | other op =>
    obtain ⟨⟨-, -, hpc⟩, -⟩ := hst
    rw [hpc]
    exact .inl hp
  | reader op =>
    obtain ⟨⟨henabled, hrun⟩, -⟩ := hst
    rw [hrun]
    cases op with
    | start r =>
      have hne : p ≠ r := ne_of_waiting hp henabled nofun
      exact .inl ((update_of_ne hne _ _).trans hp)
    | test r =>
      show ((ReaderOp.test r).run w.1.readers).pc p = .waiting ∨
        ((ReaderOp.test r).run w.1.readers).pc p = .past
      rw [ReaderOp.run]
      split_ifs
      · exact .inl hp
      · by_cases hr : p = r
        · rw [hr]
          exact .inr (update_self r _ _)
        · exact .inl ((update_of_ne hr _ _).trans hp)
    | ret r =>
      have hne : p ≠ r := ne_of_waiting hp henabled nofun
      exact .inl ((update_of_ne hne _ _).trans hp)
    | interrupt => exact .inl hp

/-- A tick stays until the process has tested the flag. -/
theorem ticked_of_step (hst : (waitTicksLTS m Proc).step w a w') (hp : w.1.pc p = .waiting)
    (ht : w.2.ticked p = true) (hne : a ≠ .reader (.test p)) : w'.2.ticked p = true := by
  cases a with
  | other op =>
    rw [show w'.2 = w.2 from hst.2]
    exact ht
  | reader op =>
    obtain ⟨⟨henabled, -⟩, hrecord⟩ := hst
    rw [hrecord]
    cases op with
    | start r =>
      have hr : p ≠ r := ne_of_waiting hp henabled nofun
      exact (update_of_ne hr _ _).trans ht
    | test r =>
      have hr : p ≠ r := by
        rintro rfl
        exact hne rfl
      exact (update_of_ne hr _ _).trans ht
    | ret r => exact ht
    | interrupt => exact decide_eq_true hp

/-- A process that tests the flag with a tick leaves its loop. -/
theorem past_of_test (hinv : WaitInv w) (ht : w.2.ticked p = true)
    (hst : (waitTicksLTS m Proc).step w (.reader (.test p)) w') : w'.1.pc p = .past := by
  obtain ⟨⟨-, hrun⟩, -⟩ := hst
  obtain ⟨hwait, hflag⟩ := hinv.ticks p ht
  rw [hrun]
  apply (returns_iff hwait).mpr
  rw [hflag]
  exact hinv.alone p ht

section Liveness

variable {E : (waitTicksLTS m Proc).Exec WaitSafe} {n : ℕ}

/-- The clock interrupts a process that waits, unless its loop ends before. -/
theorem ticked_of_waiting (hfair : WaitFair E p) (hp : (E.state n).1.pc p = .waiting) :
    ∃ n', n ≤ n' ∧ ((E.state n').2.ticked p = true ∨ (E.state n').1.pc p = .past) := by
  apply E.eventually (P := fun w => w.1.pc p = .waiting ∨ w.1.pc p = .past)
    (Q := fun w => w.2.ticked p = true ∨ w.1.pc p = .past)
    (v := fun w => (!w.2.ticked p).toNat) (fun _ a => a = .reader .interrupt)
  · intro w a w' _ _ hst hP hQ
    obtain ⟨hticked, hpast⟩ := not_or.mp hQ
    have hwait := hP.resolve_right hpast
    have hone : (!w.2.ticked p).toNat = 1 := by
      rw [Bool.eq_false_of_not_eq_true hticked]
      rfl
    refine ⟨pc_of_waiting hst hwait, ?_, ?_⟩
    · rw [hone]
      exact Bool.toNat_le _
    · rintro rfl
      have ht : w'.2.ticked p = true := by
        rw [show w'.2 = _ from hst.2]
        exact decide_eq_true hwait
      rw [hone, ht]
      exact Nat.zero_lt_one
  · intro n' _
    apply hfair.clock
    intro n'' _
    rw [(waitInv_of_reach (E.reach n'')).pic]
    exact ⟨by decide, by decide⟩
  · exact .inl hp

/-- A process with a tick leaves its loop. -/
theorem past_of_ticked (hfair : WaitFair E p) (ht : (E.state n).2.ticked p = true) :
    ∃ n', n ≤ n' ∧ (E.state n').1.pc p = .past := by
  apply E.eventually (P := fun w => w.2.ticked p = true ∨ w.1.pc p = .past)
    (Q := fun w => w.1.pc p = .past)
    (v := fun w => if w.1.pc p = .past then 0 else 1) (fun _ a => a = .reader (.test p))
  · intro w a w' hw _ hst hP hQ
    have hinv := waitInv_of_reach hw
    have hticked := hP.resolve_right hQ
    obtain ⟨hwait, -⟩ := hinv.ticks p hticked
    rw [if_neg hQ]
    by_cases ha : a = .reader (.test p)
    · rw [ha] at hst
      have hpast := past_of_test hinv hticked hst
      rw [if_pos hpast]
      exact ⟨.inr hpast, Nat.zero_le 1, fun _ => Nat.zero_lt_one⟩
    · refine ⟨.inl (ticked_of_step hst hwait hticked ha), ?_, fun h => absurd h ha⟩
      split_ifs
      · exact Nat.zero_le 1
      · exact Nat.le_refl 1
  · intro n' hstay
    apply hfair.tests
    intro n'' hle
    obtain ⟨hP, hQ⟩ := hstay n'' hle
    exact ((waitInv_of_reach (E.reach n'')).ticks p (hP.resolve_right hQ)).1
  · exact .inl ht

/-- **A wait ends**: the clock interrupts, and the process tests the flag before another one can
set it again. -/
theorem past_of_waiting (hfair : WaitFair E p) (hp : (E.state n).1.pc p = .waiting) :
    ∃ n', n < n' ∧ (E.state n').1.pc p = .past := by
  have hlater : ∃ n', n ≤ n' ∧ (E.state n').1.pc p = .past := by
    obtain ⟨n₁, hle₁, hticked | hpast⟩ := ticked_of_waiting hfair hp
    · obtain ⟨n₂, hle₂, hpast⟩ := past_of_ticked hfair hticked
      exact ⟨n₂, Nat.le_trans hle₁ hle₂, hpast⟩
    · exact ⟨n₁, hle₁, hpast⟩
  obtain ⟨n', hle, hpast⟩ := hlater
  refine ⟨n', Nat.lt_of_le_of_ne hle ?_, hpast⟩
  rintro rfl
  rw [hp] at hpast
  cases hpast

end Liveness

/-- The interrupt of the clock keeps coming: when the controllers pass it on for ever, it is
handled. -/
def RtcFair {ok : Devs → IrqOp → Prop} (E : (irqLTS m).Exec ok) : Prop :=
  ∀ n, (∀ n', n ≤ n' → (E.state n').tty.pic.Delivers rtcIrqLine) → ∃ n', n ≤ n' ∧ E.label n' = .rtc

/-- The handler of the clock clears the flag. -/
theorem intOccured_of_rtc {s s' : Devs} (hrun : IrqOp.rtc.run m s = some s') :
    s'.intOccured = false := by
  rw [← Option.some.inj hrun]
  rfl

/-- **No line stays masked.** In every run in which `rtc_write` gets no bad frequency, the lines
that `entry` has unmasked, and no others, are unmasked after every handler and call, and a further
one leaves them so if and only if it keeps to that. A wait for the clock in such a run ends, as
long as the clock keeps ticking: the flag is cleared again, and a process in the loop of `rtc_read`
leaves it, when no other one sets the flag between the interrupt and its test. -/
theorem linesOpen_of_safe (m : Machine) (Proc : Type) [DecidableEq Proc] :
    (∀ s, (irqLTS m).Reach MasksSafe s → LinesOpen s.tty.pic ∧
      ∀ op s', (irqLTS m).step s op s' → (LinesOpen s'.tty.pic ↔ MasksSafe s op)) ∧
    (∀ E : (irqLTS m).Exec MasksSafe, RtcFair E →
      ∀ n, ∃ n', n < n' ∧ (E.state n').intOccured = false) ∧
    ∀ (E : (waitTicksLTS m Proc).Exec WaitSafe) (p : Proc), WaitFair E p →
      ∀ n, (E.state n).1.pc p = .waiting → ∃ n', n < n' ∧ (E.state n').1.pc p = .past := by
  refine ⟨?_, ?_, fun E p hfair n => past_of_waiting hfair⟩
  · intro s hs
    have hpic := pic_of_reach hs
    refine ⟨linesOpen_iff.mpr hpic, ?_⟩
    intro op s' hstep
    rw [linesOpen_iff]
    exact IrqOp.run_pic hpic hstep
  · intro E hfair n
    have hdelivers : ∀ n', n ≤ n' → (E.state n').tty.pic.Delivers rtcIrqLine := by
      intro n' _
      rw [pic_of_reach (E.reach n')]
      exact ⟨by decide, by decide⟩
    obtain ⟨n', hle, hlabel⟩ := hfair n hdelivers
    have hstep := E.step n'
    rw [hlabel] at hstep
    exact ⟨n' + 1, Nat.lt_succ_of_le hle, intOccured_of_rtc hstep⟩

/-- The devices at boot. -/
def sampleDevs : Devs := ⟨bootTty (fun _ => 0) [], 0, 0, false⟩

theorem sampleDevs_init : (irqLTS sampleMachine).init sampleDevs := ⟨fun _ => 0, [], rfl⟩

/-- `rtc_write` of the frequency 3. -/
def sampleWrite : IrqOp := .rtcWrite (fun _ => 3) 0x8048000

/-- After a bad frequency the line of the clock is masked. -/
theorem not_linesOpen_sampleWrite :
    ∃ s, (irqLTS sampleMachine).Reach LTS.always s ∧ ¬ LinesOpen s.tty.pic := by
  refine ⟨sampleDevs.setRtc (HieUnix.rtcWrite sampleDevs.rtc (fun _ => 3) 0x8048000).2,
    .step (a := sampleWrite) (.init sampleDevs_init) trivial rfl, ?_⟩
  rw [linesOpen_iff]
  have hpic : sampleDevs.rtc.pic = entryPic := rfl
  show (HieUnix.rtcWrite sampleDevs.rtc (fun _ => 3) 0x8048000).2.pic ≠ entryPic
  rw [rtcWrite_pic hpic, if_neg (by decide)]
  exact disableIrq_entryPic_ne

/-- One process reads the clock again and again: the steps of `rtc_read`, with the interrupt before
the test. -/
def sampleReads : ℕ → WaitOp Unit
  | 0 => .reader (.start ())
  | 1 => .reader .interrupt
  | 2 => .reader (.test ())
  | _ => .reader (.ret ())

/-- The devices, the process and the record before these steps. -/
def sampleWaits : ℕ → DevReaders Unit × Ticks Unit
  | 0 => (⟨sampleDevs, fun _ => .outside⟩, ⟨fun _ => false, false⟩)
  | 1 => (⟨{ sampleDevs with intOccured := true }, fun _ => .waiting⟩, ⟨fun _ => false, true⟩)
  | 2 => (⟨sampleDevs, fun _ => .waiting⟩, ⟨fun _ => true, false⟩)
  | _ => (⟨sampleDevs, fun _ => .past⟩, ⟨fun _ => false, false⟩)

/-- The process reads for ever. -/
def sampleRereads : (waitTicksLTS sampleMachine Unit).Exec WaitSafe where
  state n := sampleWaits (n % 4)
  label n := sampleReads (n % 4)
  init := ⟨⟨sampleDevs_init, fun _ => rfl⟩, rfl⟩
  ok n := by
    have hn : n % 4 = 0 ∨ n % 4 = 1 ∨ n % 4 = 2 ∨ n % 4 = 3 := by omega
    rcases hn with h | h | h | h <;> rw [h]
    · exact fun _ => rfl
    all_goals trivial
  step n := by
    have hn : n % 4 = 0 ∧ (n + 1) % 4 = 1 ∨ n % 4 = 1 ∧ (n + 1) % 4 = 2 ∨
      n % 4 = 2 ∧ (n + 1) % 4 = 3 ∨ n % 4 = 3 ∧ (n + 1) % 4 = 0 := by omega
    rcases hn with ⟨h, h'⟩ | ⟨h, h'⟩ | ⟨h, h'⟩ | ⟨h, h'⟩ <;> rw [h, h']
    · exact ⟨⟨rfl, rfl⟩, rfl⟩
    · exact ⟨⟨trivial, rfl⟩, rfl⟩
    · exact ⟨⟨rfl, rfl⟩, rfl⟩
    · exact ⟨⟨rfl, rfl⟩, rfl⟩

theorem sampleRereads_fair : WaitFair sampleRereads () := by
  constructor
  · intro n _
    refine ⟨4 * n + 1, by omega, ?_⟩
    have hn : (4 * n + 1) % 4 = 1 := by omega
    show sampleReads ((4 * n + 1) % 4) = _
    rw [hn]
    rfl
  · intro n _
    refine ⟨4 * n + 2, by omega, ?_⟩
    have hn : (4 * n + 2) % 4 = 2 := by omega
    show sampleReads ((4 * n + 2) % 4) = _
    rw [hn]
    rfl

/-- The good frequency 4 leaves the lines open, and a process that reads the clock again and again
does not wait for ever. -/
theorem linesOpen_of_safe_sample :
    LinesOpen (sampleDevs.setRtc
      (HieUnix.rtcWrite sampleDevs.rtc (fun _ => 4) 0x8048000).2).tty.pic ∧
    ∃ n, 1 < n ∧ (sampleRereads.state n).1.pc () = .past := by
  have hgood : MasksSafe sampleDevs (.rtcWrite (fun _ => 4) 0x8048000) := .inr (by decide)
  obtain ⟨hopen, -, hwait⟩ := linesOpen_of_safe sampleMachine Unit
  obtain ⟨-, hstep⟩ := hopen sampleDevs (.init sampleDevs_init)
  exact ⟨(hstep (.rtcWrite (fun _ => 4) 0x8048000) _ rfl).mpr hgood,
    hwait sampleRereads () sampleRereads_fair 1 rfl⟩

end HieUnix
