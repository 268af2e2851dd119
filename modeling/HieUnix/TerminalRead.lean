import HieUnix.Devices

/-!
# What `terminal_read` stores

With a mouse click pending, a read takes the 32 bytes of the command (`terminalRead_of_mouse`).
Otherwise it takes the bytes of `enter_buffer` up to the first zero byte, or as many as it may,
and a newline after them (`terminalRead_of_line`).
-/

namespace HieUnix

open Function

variable {con : Console} {t u : Term} {mem : Memory} {buf nbytes : Word}

/-! ## Clicks -/

/-- A command that begins with a zero byte is none. -/
theorem mousePending_iff (con : Console) : con.MousePending ↔ con.mouseCommand 0 ≠ 0 := by
  rw [Console.MousePending, ne_eq, not_iff_not, strncmp_eq_zero_iff]
  constructor
  · intro h
    exact h 0 (by decide) (fun k hk => absurd hk (Nat.not_lt_zero k))
  · intro h0 j hj hk
    cases j with
    | zero => exact h0
    | succ j => exact absurd h0 (hk 0 (Nat.succ_pos j))

/-- What `strncpy` from the empty string leaves is no command. -/
theorem strncpy_nil_zero (command : ℕ → Byte) : strncpy command (cstr []) fnameSize 0 = 0 := by
  rw [strncpy_of_lt (by decide)]
  exact if_neg (fun h => h 0 (Nat.le_refl 0) rfl)

theorem terminalRead_of_mouse (hbuf : buf ≠ 0) (hmouse : con.MousePending) :
    terminalRead con t mem buf nbytes
      = (32, { con with
          mouseCommand := strncpy con.mouseCommand (cstr []) fnameSize
          enterFlag := update con.enterFlag t 0
          currBuffPos := update con.currBuffPos con.currentActiveTerminal 0
          inputBuffer := update con.inputBuffer con.currentActiveTerminal fun _ => 0 },
        mem.patch buf 0 fnameSize con.mouseCommand) := by
  rw [terminalRead, if_neg hbuf, if_pos hmouse]
  rfl

/-! ## Lines -/

/-- The copy loop copies up to the first zero byte, which it copies too. -/
theorem terminalReadLoop_eq (enterBuffer : ℕ → Byte) (buf : Word) {fuel i : ℕ}
    (hfit : i + fuel ≤ 2 ^ 32) (mem : Memory) :
    ∃ hi, strlenLoop enterBuffer fuel i ≤ hi ∧ hi ≤ strlenLoop enterBuffer fuel i + 1 ∧
      hi ≤ i + fuel ∧ terminalReadLoop enterBuffer buf fuel i mem
        = (strlenLoop enterBuffer fuel i, mem.patch buf i hi enterBuffer) := by
  induction fuel generalizing i mem with
  | zero =>
    refine ⟨i, Nat.le_refl i, Nat.le_succ i, Nat.le_refl i, ?_⟩
    rw [terminalReadLoop, strlenLoop, Memory.patch_self]
  | succ fuel ih =>
    have hfirst := fun hi (h : i < hi) => Memory.patch_store8 mem buf enterBuffer h
    rw [strlenLoop, terminalReadLoop]
    by_cases hz : enterBuffer i = 0
    · have hpatch := hfirst (i + 1) (Nat.lt_succ_self i) (by omega)
      rw [Memory.patch_self] at hpatch
      refine ⟨i + 1, ?_, ?_, by omega, ?_⟩
      · rw [if_neg (not_not_intro hz)]
        exact Nat.le_succ i
      · rw [if_neg (not_not_intro hz)]
      · rw [if_pos hz, if_neg (not_not_intro hz), ← hpatch]
    · obtain ⟨hi, h1, h2, h3, hloop⟩ :=
        ih (i := i + 1) (by omega) (mem.store8 (buf + BitVec.ofNat 32 i) (enterBuffer i))
      have hlt := le_strlenLoop enterBuffer fuel (i + 1)
      rw [if_pos hz]
      refine ⟨hi, h1, h2, by omega, ?_⟩
      rw [if_neg hz, hloop, hfirst hi (by omega) (by omega)]

/-- How many bytes of the line a read takes. -/
def lineLength (con : Console) (nbytes : Word) : ℕ := strlenLoop con.enterBuffer (readCount nbytes) 0

theorem readCount_le (nbytes : Word) : readCount nbytes ≤ 128 := by
  rw [readCount]
  split_ifs with h
  · exact Nat.le_refl _
  · exact Nat.le_of_not_lt h

theorem lineLength_le (con : Console) (nbytes : Word) : lineLength con nbytes ≤ 128 := by
  have h1 := strlenLoop_le con.enterBuffer (readCount nbytes) 0
  have h2 := readCount_le nbytes
  rw [lineLength]
  omega

/-- **A read stores the line up to its first zero byte and a newline**, and nothing else. -/
theorem terminalRead_of_line (hbuf : buf ≠ 0) (hmouse : ¬ con.MousePending) (t : Term)
    (mem : Memory) (nbytes : Word) :
    ∃ mem', terminalRead con t mem buf nbytes
        = (BitVec.ofNat 32 (lineLength con nbytes + 1),
          { con with enterFlag := update con.enterFlag t 0 }, mem') ∧
      mem'.bytes buf (lineLength con nbytes + 1)
        = (List.range (lineLength con nbytes)).map con.enterBuffer ++ [chr '\n'] ∧
      ∀ a, ¬ InSpan a buf (lineLength con nbytes + 1) → mem' a = mem a := by
  have hcount := readCount_le nbytes
  obtain ⟨hi, h1, h2, h3, hloop⟩ :=
    terminalReadLoop_eq con.enterBuffer buf (show 0 + readCount nbytes ≤ 2 ^ 32 by omega) mem
  have hlen : strlenLoop con.enterBuffer (readCount nbytes) 0 = lineLength con nbytes := rfl
  have hle := lineLength_le con nbytes
  rw [hlen] at h1 h2 hloop
  refine ⟨(mem.patch buf 0 hi con.enterBuffer).store8
    (buf + BitVec.ofNat 32 (lineLength con nbytes)) (chr '\n'), ?_, ?_, ?_⟩
  · rw [terminalRead, if_neg hbuf, if_neg hmouse]
    dsimp only
    rw [hloop]
  · rw [Memory.bytes_store8 (by omega), Memory.bytes_patch h1 (by omega)]
  · intro a ha
    rw [InSpan] at ha
    rw [Memory.store8_of_ne, Memory.patch, if_neg (by omega)]
    intro heq
    apply ha
    rw [heq]
    bv_omega

/-- Without a click pending, all that a read changes in the console is the flag. -/
theorem terminalRead_con (hmouse : ¬ con.MousePending) (t : Term) (mem : Memory)
    (buf nbytes : Word) :
    (terminalRead con t mem buf nbytes).2.1
      = if buf = 0 then con else { con with enterFlag := update con.enterFlag t 0 } := by
  by_cases hbuf : buf = 0
  · rw [terminalRead, if_pos hbuf, if_pos hbuf]
  · obtain ⟨mem', hread, -⟩ := terminalRead_of_line hbuf hmouse t mem nbytes
    rw [hread, if_neg hbuf]

end HieUnix
