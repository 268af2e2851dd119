import HieUnix.Arguments
import HieUnix.TerminalRead

/-!
# Calls that are given a count

`getargs` and `terminal_read` write into a buffer of the caller, who says how long it is. `getargs`
takes its count as a signed number and compares it with an unsigned one, so that a negative count
passes for a large one (`keepsCount_iff`). `terminal_read` puts a newline after the last byte that
it has copied, and copies a mouse command whole, whatever the count is (`readsWithin_iff`).
-/

namespace HieUnix

open Function

variable {p : Pcb} {args : List Byte} {con : Console} {mem : Memory} {buf nbytes : Word}

/-! ## `getargs` -/

/-- `getargs` writes no more than `nbytes` bytes of the buffer, none for a negative count, and
turns away a count that the arguments with their zero byte do not fit. -/
structure KeepsCount (p : Pcb) (args : List Byte) (mem : Memory) (buf nbytes : Word) : Prop where
  writes : ∀ a, (sysGetargs p mem buf nbytes).Touches a → InSpan a buf (max nbytes.toInt 0).toNat
  short : nbytes.toInt < args.length + 1 →
    (sysGetargs p mem buf nbytes).val = (error, mem) ∧
      ∀ a, ¬ (sysGetargs p mem buf nbytes).Touches a

theorem not_touches_sysGetargs_of_rejected
    (h : buf = 0 ∨ nbytes < p.argumentBufferSize ∨ p.argumentBufferSize ≤ 1) (a : Word) :
    ¬ (sysGetargs p mem buf nbytes).Touches a := by
  rw [sysGetargs, if_pos h]
  exact Traced.not_touches_pure _

/-- What `getargs` writes: as many zero bytes as the count says, and the arguments. -/
theorem touches_sysGetargs_of_accepted
    (h : ¬ (buf = 0 ∨ nbytes < p.argumentBufferSize ∨ p.argumentBufferSize ≤ 1))
    (hok : accessOk buf ≠ error) (a : Word) :
    (sysGetargs p mem buf nbytes).Touches a ↔
      InSpan a buf nbytes.toInt.toNat ∨ InSpan a buf p.argumentBufferSize.toNat := by
  rw [sysGetargs, if_neg h, if_neg hok, Traced.touches_bind, Traced.touches_fill,
    Traced.touches_bind, Traced.touches_patch, copySize_of_accepted h,
    or_iff_left (Traced.not_touches_pure _)]

/-- **`getargs` keeps to its count when the count is not negative**, or there is nothing to copy. -/
theorem keepsCount_iff (hstores : Stores p args) (hargs : args.length + 1 ≤ maxBufferSize)
    (hok : accessOk buf ≠ error) (mem : Memory) (nbytes : Word) :
    KeepsCount p args mem buf nbytes ↔ 0 ≤ nbytes.toInt ∨ args = [] := by
  have hlen : args.length + 1 ≤ 128 := hargs
  have hsize : p.argumentBufferSize.toNat = args.length + 1 := by
    rw [hstores.1, BitVec.toNat_ofNat, Nat.mod_eq_of_lt (by omega)]
  have hnil : args = [] ↔ args.length = 0 := List.length_eq_zero_iff.symm
  by_cases hrej : buf = 0 ∨ nbytes < p.argumentBufferSize ∨ p.argumentBufferSize ≤ 1
  · -- turned away: the count is small and not negative, or there are no arguments
    have hnot : ∀ a, ¬ (sysGetargs p mem buf nbytes).Touches a :=
      not_touches_sysGetargs_of_rejected hrej
    refine iff_of_true ⟨fun a ha => absurd ha (hnot a),
      fun _ => ⟨sysGetargs_of_rejected hrej, hnot⟩⟩ ?_
    rcases hrej with h0 | hlt | hle
    · rw [h0] at hok
      exact absurd rfl hok
    · left
      rw [BitVec.toInt_eq_toNat_cond]
      have hsmall : nbytes.toNat < args.length + 1 := by
        rw [← hsize]
        exact hlt
      split <;> omega
    · right
      rw [hnil]
      bv_omega
  · have htouches : ∀ a, (sysGetargs p mem buf nbytes).Touches a ↔
        InSpan a buf nbytes.toInt.toNat ∨ InSpan a buf p.argumentBufferSize.toNat :=
      touches_sysGetargs_of_accepted hrej hok
    obtain ⟨-, hrej'⟩ := not_or.mp hrej
    obtain ⟨hlt, hle⟩ := not_or.mp hrej'
    have hlt' : args.length + 1 ≤ nbytes.toNat := by bv_omega
    have hle' : 1 < args.length + 1 := by bv_omega
    -- accepted with a negative count, the copy writes the first byte all the same
    constructor
    · intro h
      left
      by_contra hneg
      have hwrites := h.writes buf ((htouches buf).mpr (.inr ?_))
      · rw [InSpan] at hwrites
        omega
      · rw [InSpan, BitVec.sub_self, hsize]
        exact Nat.succ_pos _
    · intro h
      have hpos : 0 ≤ nbytes.toInt := h.resolve_right fun h0 => by
        rw [hnil] at h0
        omega
      have hint := toInt_eq_toNat_of_nonneg hpos
      constructor
      · intro a ha
        rw [htouches a, hsize, InSpan, InSpan] at ha
        rw [InSpan]
        omega
      · intro hshort
        omega

/-- The control block of a program that was given the argument `a`. -/
def samplePcbArgs : Pcb := storeArguments (str ['a']) (sampleBoot.pcb 0)

theorem samplePcbArgs_stores : Stores samplePcbArgs (str ['a']) := stores_storeArguments _ _

/-- With the count 8 it is handed out within the buffer. -/
theorem keepsCount_iff_sample : KeepsCount samplePcbArgs (str ['a']) (fun _ => 0) 0x8048000 8 :=
  (keepsCount_iff samplePcbArgs_stores (by decide) (by decide) _ _).mpr (.inl (by decide))

/-- With the count -1 two bytes are written all the same. -/
theorem not_keepsCount_negative :
    ¬ KeepsCount samplePcbArgs (str ['a']) (fun _ => 0) 0x8048000 (-1) := by
  intro h
  have htouch : (sysGetargs samplePcbArgs (fun _ => 0) 0x8048000 (-1)).Touches 0x8048000 := by
    rw [touches_sysGetargs_of_accepted (by decide) (by decide)]
    exact .inr (by decide)
  exact absurd (h.writes _ htouch) (by decide)

/-! ## `terminal_read` -/

/-- The completed line: `enter_buffer` up to its first zero byte, all 128 bytes when it has none. -/
def Console.line (con : Console) : List Byte :=
  (List.range (strlenLoop con.enterBuffer maxBufferSize 0)).map con.enterBuffer

/-- A read of the terminal stores within the first `nbytes` bytes of the buffer and returns a count
up to `nbytes`. Those bytes are a part of the line from its start on and a newline, or the command
of a mouse click when one is pending. -/
structure ReadsWithin (con : Console) (t : Term) (mem : Memory) (buf nbytes : Word) : Prop where
  writes : ∀ a, (terminalReadT con t mem buf nbytes).Touches a → InSpan a buf nbytes.toNat
  nonneg : 0 ≤ (terminalRead con t mem buf nbytes).1.toInt
  count : (terminalRead con t mem buf nbytes).1.toNat ≤ nbytes.toNat
  line : ¬ con.MousePending → ∃ pre, pre <+: con.line ∧
    (terminalRead con t mem buf nbytes).2.2.bytes buf (terminalRead con t mem buf nbytes).1.toNat
      = pre ++ [chr '\n']
  command : con.MousePending →
    (terminalRead con t mem buf nbytes).2.2.bytes buf (terminalRead con t mem buf nbytes).1.toNat
      = (List.range fnameSize).map con.mouseCommand

/-- A loop with less room stops where the room ends, or where the string does. -/
theorem strlenLoop_min (s : ℕ → Byte) {n n' : ℕ} (h : n ≤ n') :
    strlenLoop s n 0 = min n (strlenLoop s n' 0) := by
  have hle := strlenLoop_le s n' 0
  apply strlenLoop_eq (Nat.zero_le _)
  · omega
  · intro j hj hlt
    exact ne_zero_of_lt_strlenLoop hj (Nat.lt_of_lt_of_le hlt (Nat.min_le_right n _))
  · intro hlt
    have hmin : min n (strlenLoop s n' 0) = strlenLoop s n' 0 := by omega
    rw [hmin] at hlt ⊢
    exact eq_zero_of_strlenLoop_lt (by omega)

theorem length_line (con : Console) :
    con.line.length = strlenLoop con.enterBuffer maxBufferSize 0 := by
  rw [Console.line, List.length_map, List.length_range]

/-- A read takes as much of the line as the count says. -/
theorem lineLength_eq (con : Console) (nbytes : Word) :
    lineLength con nbytes = min nbytes.toNat con.line.length := by
  have hle := strlenLoop_le con.enterBuffer maxBufferSize 0
  have hmax : maxBufferSize = 128 := rfl
  have hcount : readCount nbytes = min nbytes.toNat maxBufferSize := by
    rw [readCount]
    split_ifs with h
    · have hlt : 128 < nbytes.toNat := h
      omega
    · have hlt : nbytes.toNat ≤ 128 := Nat.le_of_not_lt h
      omega
  have hroom : readCount nbytes ≤ maxBufferSize := readCount_le nbytes
  rw [lineLength, length_line, strlenLoop_min con.enterBuffer hroom, hcount]
  omega

theorem take_line (con : Console) {n : ℕ} (h : n ≤ con.line.length) :
    con.line.take n = (List.range n).map con.enterBuffer := by
  rw [length_line] at h
  rw [Console.line, ← List.map_take, List.take_range, Nat.min_eq_left h]

/-- `terminal_read` stores one byte more than it copies of a line. -/
theorem lineSize_of_line (hmouse : ¬ con.MousePending) (nbytes : Word) :
    lineSize con nbytes = lineLength con nbytes + 1 := by
  rw [lineSize, if_neg hmouse]
  rfl

/-- **`terminal_read` respects its bound** when the whole line and its newline fit in it, or the
whole command when a click is pending. -/
theorem readsWithin_iff (hbuf : buf ≠ 0) (con : Console) (t : Term) (mem : Memory) (nbytes : Word) :
    ReadsWithin con t mem buf nbytes ↔
      (con.MousePending → 32 ≤ nbytes.toNat) ∧
        (¬ con.MousePending → con.line.length + 1 ≤ nbytes.toNat) := by
  obtain ⟨htouch, hlast⟩ := touches_terminalReadT con t mem nbytes hbuf
  -- a click is copied whole, 32 bytes, and a line up to the count with a newline after it
  by_cases hmouse : con.MousePending
  · have hread : terminalRead con t mem buf nbytes = (32, _, _) := terminalRead_of_mouse hbuf hmouse
    have hsize : lineSize con nbytes = 32 := if_pos hmouse
    constructor
    · intro h
      have hcount := h.count
      rw [hread] at hcount
      exact ⟨fun _ => hcount, fun hno => absurd hmouse hno⟩
    · rintro ⟨hfits, -⟩
      have hle := hfits hmouse
      refine ⟨?_, ?_, ?_, fun hno => absurd hmouse hno, fun _ => ?_⟩
      · intro a ha
        have hspan := htouch a ha
        rw [hsize] at hspan
        exact lt_of_lt_of_le hspan hle
      · rw [hread]
        show 0 ≤ (32 : Word).toInt
        decide
      · rw [hread]
        exact hle
      · rw [hread]
        exact Memory.bytes_patch (Nat.le_refl _) (by decide)
  · obtain ⟨mem', hread, hbytes, -⟩ := terminalRead_of_line hbuf hmouse t mem nbytes
    have hlen := lineLength_eq con nbytes
    have hmax := lineLength_le con nbytes
    have hret : (BitVec.ofNat 32 (lineLength con nbytes + 1)).toNat
        = lineLength con nbytes + 1 := by
      rw [BitVec.toNat_ofNat, Nat.mod_eq_of_lt (by omega)]
    constructor
    · intro h
      have hcount := h.count
      rw [hread] at hcount
      dsimp only at hcount
      refine ⟨fun hyes => absurd hyes hmouse, fun _ => ?_⟩
      omega
    · rintro ⟨-, hfits⟩
      have hle := hfits hmouse
      refine ⟨?_, ?_, ?_, fun _ => ⟨con.line.take (lineLength con nbytes), ?_, ?_⟩,
        fun hyes => absurd hyes hmouse⟩
      · intro a ha
        have hspan := htouch a ha
        rw [lineSize_of_line hmouse] at hspan
        rw [InSpan] at hspan ⊢
        omega
      · rw [hread]
        dsimp only
        rw [BitVec.toInt_eq_toNat_cond, hret]
        split <;> omega
      · rw [hread]
        dsimp only
        omega
      · exact List.take_prefix _ _
      · rw [hread]
        dsimp only
        rw [hret, hbytes, take_line con (by omega)]

/-- A console with the line `"ls"` completed. -/
def sampleEntered : Console where
  enterFlag _ := 1
  enterBuffer := cstr (str ['l', 's'])
  inputBuffer _ _ := 0
  currBuffPos _ := 0
  mouseCommand _ := 0
  currentActiveTerminal := 0
  written := []

/-- Three bytes are enough for it. -/
theorem readsWithin_iff_sample : ReadsWithin sampleEntered 0 (fun _ => 0) 0x8048000 3 :=
  (readsWithin_iff (by decide) _ _ _ _).mpr ⟨fun h => absurd h (by decide), fun _ => by decide⟩

/-- With two the newline is stored behind the buffer. -/
theorem not_readsWithin_short : ¬ ReadsWithin sampleEntered 0 (fun _ => 0) 0x8048000 2 := by
  intro h
  exact absurd h.count (by decide)

end HieUnix
