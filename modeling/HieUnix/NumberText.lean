import HieUnix.Lib.Numerals
import HieUnix.LibC

/-!
# Numbers as text

`itoa`, `strrev` and `puts` of `lib.c`. A buffer is given by offset, and a pointer into it is an
offset, so that `itoa` can be given a place inside a buffer. The digits come out in reverse and
are turned around in place; `itoa_eq` says what the buffer holds afterwards.
-/

namespace HieUnix

open Function Numerals

variable {buf newbuf s j n : ℕ} {t : List Byte}

/-! ## Bytes written one after the other -/

/-- A buffer with the bytes of a list from `p` on. -/
def writeBytes (mem : ℕ → Byte) (p : ℕ) : List Byte → ℕ → Byte
  | [] => mem
  | b :: bs => writeBytes (update mem p b) (p + 1) bs

theorem writeBytes_append (mem : ℕ → Byte) (p : ℕ) (bs cs : List Byte) :
    writeBytes mem p (bs ++ cs) = writeBytes (writeBytes mem p bs) (p + bs.length) cs := by
  induction bs generalizing mem p with
  | nil => rfl
  | cons b bs ih =>
    rw [List.cons_append, writeBytes, ih, writeBytes, List.length_cons, Nat.add_assoc,
      Nat.add_comm 1]

theorem writeBytes_of_lt (mem : ℕ → Byte) {p : ℕ} (bs : List Byte) (h : j < p) :
    writeBytes mem p bs j = mem j := by
  induction bs generalizing mem p with
  | nil => rfl
  | cons b bs ih => rw [writeBytes, ih _ (by omega), update_of_ne (by omega)]

theorem writeBytes_of_ge (mem : ℕ → Byte) {p : ℕ} {bs : List Byte} (h : p + bs.length ≤ j) :
    writeBytes mem p bs j = mem j := by
  induction bs generalizing mem p with
  | nil => rfl
  | cons b bs ih =>
    rw [List.length_cons] at h
    rw [writeBytes, ih _ (by omega), update_of_ne (by omega)]

theorem writeBytes_add (mem : ℕ → Byte) {p i : ℕ} {bs : List Byte} (h : i < bs.length) :
    writeBytes mem p bs (p + i) = bs[i] := by
  induction bs generalizing mem p i with
  | nil => exact absurd h (Nat.not_lt_zero i)
  | cons b bs ih =>
    rw [writeBytes]
    cases i with
    | zero =>
      show writeBytes (update mem p b) (p + 1) bs p = b
      rw [writeBytes_of_lt _ _ (Nat.lt_add_one p), update_self]
    | succ i =>
      have hi : i < bs.length := Nat.lt_of_succ_lt_succ h
      rw [show p + (i + 1) = p + 1 + i by omega, ih _ hi]
      rfl

/-- A string and its terminator, written at `p`. -/
def writeString (mem : ℕ → Byte) (p : ℕ) (t : List Byte) : ℕ → Byte := writeBytes mem p (t ++ [0])

theorem writeString_add (mem : ℕ → Byte) (p : ℕ) {i : ℕ} (h : i ≤ t.length) :
    writeString mem p t (p + i) = cstr t i := by
  have hlen : (t ++ [(0 : Byte)]).length = t.length + 1 := List.length_append
  rw [writeString, writeBytes_add mem (by omega)]
  rcases Nat.eq_or_lt_of_le h with rfl | hlt
  · rw [List.getElem_concat_length rfl, cstr_of_length_le le_rfl]
  · rw [List.getElem_append_left hlt, cstr_eq_getElem hlt]

theorem writeString_of_lt (mem : ℕ → Byte) {p : ℕ} (t : List Byte) (h : j < p) :
    writeString mem p t j = mem j :=
  writeBytes_of_lt mem _ h

theorem writeString_of_gt (mem : ℕ → Byte) {p : ℕ} {t : List Byte} (h : p + t.length < j) :
    writeString mem p t j = mem j :=
  writeBytes_of_ge mem (by rw [List.length_append, List.length_singleton]; omega)

theorem isString_writeString (mem : ℕ → Byte) (p : ℕ) (h0 : (0 : Byte) ∉ t) :
    IsString (fun i => writeString mem p t (p + i)) t :=
  ⟨h0, fun _ hi => writeString_add mem p hi⟩

/-- `strlen` of a string, over the whole address space. -/
theorem IsString.strlen_eq {f : ℕ → Byte} (hf : IsString f t) (ht : t.length < 2 ^ 32) :
    strlen f (2 ^ 32) = t.length := by
  refine strlenLoop_eq (Nat.zero_le _) (by omega) (fun i _ hi => ?_) fun _ => ?_
  · rw [hf.2 i (Nat.le_of_lt hi)]
    exact cstr_ne_zero hf.1 hi
  · rw [hf.2 _ le_rfl]
    exact cstr_of_length_le le_rfl

/-! ## `strrev` -/

/-- The loop of `strrev`, on the string at `s`. -/
def strrevLoop (mem : ℕ → Byte) (s : ℕ) (beg end' : ℤ) : ℕ → Byte :=
  if beg < end' then
    let tmp := mem (s + end'.toNat)
    let mem := update mem (s + end'.toNat) (mem (s + beg.toNat))
    let mem := update mem (s + beg.toNat) tmp
    strrevLoop mem s (beg + 1) (end' - 1)
  else mem
termination_by (end' - beg).toNat
decreasing_by omega

/-- `strrev` of the string at `s`. -/
def strrev (mem : ℕ → Byte) (s : ℕ) : ℕ → Byte :=
  strrevLoop mem s 0 ((strlen (fun i => mem (s + i)) (2 ^ 32) : ℤ) - 1)

/-- Two bytes exchanged. -/
theorem swap_apply (mem : ℕ → Byte) {b e : ℕ} (hne : b ≠ e) (j : ℕ) :
    update (update mem e (mem b)) b (mem e) j
      = if j = b then mem e else if j = e then mem b else mem j := by
  rcases eq_or_ne j b with rfl | hb
  · rw [update_self, if_pos rfl]
  · rcases eq_or_ne j e with rfl | he
    · rw [update_of_ne hb, update_self, if_neg hb, if_pos rfl]
    · rw [update_of_ne hb, update_of_ne he, if_neg hb, if_neg he]

/-- The loop turns around what lies between its two indices. -/
theorem strrevLoop_apply (mem : ℕ → Byte) (s : ℕ) {beg : ℤ} (end' : ℤ) (hbeg : 0 ≤ beg) (j : ℕ) :
    strrevLoop mem s beg end' j =
      if s + beg ≤ j ∧ (j : ℤ) ≤ s + end' then mem (2 * s + beg + end' - j).toNat else mem j := by
  induction mem, beg, end' using strrevLoop.induct s with
  | case1 mem beg end' hlt tmp mem₁ mem₂ ih =>
    have hmem : ∀ i, mem₂ i = if i = s + beg.toNat then mem (s + end'.toNat)
        else if i = s + end'.toNat then mem (s + beg.toNat) else mem i :=
      swap_apply mem (by omega)
    rw [strrevLoop, if_pos hlt, ih (by omega)]
    have hsum : 2 * (s : ℤ) + (beg + 1) + (end' - 1) - j = 2 * s + beg + end' - j := by omega
    rw [hsum]
    by_cases hin : (s : ℤ) + (beg + 1) ≤ j ∧ (j : ℤ) ≤ s + (end' - 1)
    · rw [if_pos hin, if_pos (by omega), hmem, if_neg (by omega), if_neg (by omega)]
    · rw [if_neg hin, hmem]
      by_cases hfirst : j = s + beg.toNat
      · rw [if_pos hfirst, if_pos (by omega)]
        congr 1
        omega
      · rw [if_neg hfirst]
        by_cases hlast : j = s + end'.toNat
        · rw [if_pos hlast, if_pos (by omega)]
          congr 1
          omega
        · rw [if_neg hlast, if_neg (by omega)]
  | case2 mem beg end' hge =>
    rw [strrevLoop, if_neg hge]
    split
    · congr 1
      omega
    · rfl

/-- `strrev` of a string is the string turned around, and nothing else changes. -/
theorem strrev_writeString (mem : ℕ → Byte) (p : ℕ) (h0 : (0 : Byte) ∉ t)
    (ht : t.length < 2 ^ 32) :
    strrev (writeString mem p t) p = writeString mem p t.reverse := by
  funext j
  rw [strrev, (isString_writeString mem p h0).strlen_eq ht, strrevLoop_apply _ _ _ le_rfl]
  by_cases hin : p ≤ j ∧ j < p + t.length
  -- inside, the byte that is as far from the other end
  · obtain ⟨i, rfl⟩ := Nat.exists_eq_add_of_le hin.1
    have hi : i < t.length := by omega
    have hidx : (2 * (p : ℤ) + 0 + ((t.length : ℤ) - 1) - ((p + i : ℕ) : ℤ)).toNat
        = p + (t.length - 1 - i) := by omega
    have hrev : i < t.reverse.length := by rwa [List.length_reverse]
    rw [if_pos (by omega), hidx, writeString_add mem p (by omega), writeString_add mem p (by omega),
      cstr_eq_getElem (by omega), cstr_eq_getElem hrev, List.getElem_reverse]
  · rw [if_neg (by omega)]
    rcases Nat.lt_or_ge j p with hlt | hge
    · rw [writeString_of_lt mem t hlt, writeString_of_lt mem _ hlt]
    · rcases Nat.eq_or_lt_of_le (show p + t.length ≤ j by omega) with rfl | hgt
      · rw [writeString_add mem p le_rfl, cstr_of_length_le le_rfl, ← List.length_reverse,
          writeString_add mem p le_rfl, cstr_of_length_le le_rfl]
      · rw [writeString_of_gt mem hgt, writeString_of_gt mem (by rwa [List.length_reverse])]

/-! ## `itoa` -/

/-- The characters of the digits. -/
def itoaLookup : List Byte := str ['0', '1', '2', '3', '4', '5', '6', '7', '8', '9', 'A', 'B', 'C',
  'D', 'E', 'F', 'G', 'H', 'I', 'J', 'K', 'L', 'M', 'N', 'O', 'P', 'Q', 'R', 'S', 'T', 'U', 'V',
  'W', 'X', 'Y', 'Z']

/-- A radix that `itoa` has digits for. -/
structure Radix where
  word : Word
  two_le : 2 ≤ word.toNat
  le : word.toNat ≤ 36

def hexadecimal : Radix := ⟨16, by decide, by decide⟩

def decimal : Radix := ⟨10, by decide, by decide⟩

/-- A division by a radix leaves less. -/
theorem Radix.div_lt (radix : Radix) {v : Word} (hv : ¬ v = 0) :
    (v / radix.word).toNat < v.toNat := by
  have hpos : 0 < v.toNat := Nat.pos_of_ne_zero fun h => hv (BitVec.eq_of_toNat_eq h)
  rw [BitVec.toNat_udiv]
  exact Nat.div_lt_self hpos radix.two_le

/-- The loop of `itoa`, which writes the lowest digit first: the buffer, and the place after the
last digit. -/
def itoaLoop (radix : Radix) (newval : Word) (mem : ℕ → Byte) (newbuf : ℕ) : (ℕ → Byte) × ℕ :=
  if newval = 0 then (mem, newbuf)
  else
    let i := (newval % radix.word).toNat
    itoaLoop radix (newval / radix.word) (update mem newbuf (itoaLookup.getD i 0)) (newbuf + 1)
termination_by newval.toNat
decreasing_by exact radix.div_lt ‹_›

/-- `itoa` of a value, to the place `buf` of a buffer. -/
def itoa (value : Word) (mem : ℕ → Byte) (buf : ℕ) (radix : Radix) : ℕ → Byte :=
  if value = 0 then update (update mem buf (chr '0')) (buf + 1) 0
  else
    let (mem, newbuf) := itoaLoop radix value mem buf
    strrev (update mem newbuf 0) buf

/-- The character of a digit. -/
def digit (d : ℕ) : Byte := itoaLookup.getD d 0

theorem digit_ne_zero {d : ℕ} (hd : d < 36) : digit d ≠ 0 := by
  revert d
  decide

/-- The loop writes the digits of what is left. -/
theorem itoaLoop_eq (radix : Radix) (newval : Word) (mem : ℕ → Byte) (newbuf : ℕ) :
    itoaLoop radix newval mem newbuf =
      (writeBytes mem newbuf ((Nat.digits radix.word.toNat newval.toNat).map digit),
        newbuf + (Nat.digits radix.word.toNat newval.toNat).length) := by
  induction newval, mem, newbuf using itoaLoop.induct radix with
  | case1 mem newbuf =>
    have hzero : (0 : Word).toNat = 0 := rfl
    rw [itoaLoop, if_pos rfl, hzero, Nat.digits_zero]
    rfl
  | case2 newval mem newbuf hne i ih =>
    have hpos : 0 < newval.toNat := Nat.pos_of_ne_zero fun h => hne (BitVec.eq_of_toNat_eq h)
    have hi : itoaLookup.getD i 0 = digit (newval.toNat % radix.word.toNat) := by
      rw [digit, ← BitVec.toNat_umod]
    rw [itoaLoop, if_neg hne, ih, Nat.digits_def' radix.two_le hpos, BitVec.toNat_udiv,
      List.map_cons, writeBytes, hi, List.length_cons, Nat.add_assoc, Nat.add_comm 1]

/-- No digit is a zero byte. -/
theorem zero_notMem_numeral (radix : Radix) (v : ℕ) :
    (0 : Byte) ∉ numeral digit radix.word.toNat v := by
  intro hmem
  obtain ⟨d, hd, hzero⟩ := exists_of_mem_numeral radix.two_le hmem
  exact digit_ne_zero (lt_of_lt_of_le hd radix.le) hzero.symm

/-- A 32-bit value has at most 32 digits. -/
theorem length_numeral_word (radix : Radix) (v : Word) :
    (numeral digit radix.word.toNat v.toNat).length ≤ 32 :=
  length_numeral_le radix.two_le (by omega)
    (lt_of_lt_of_le v.isLt (Nat.pow_le_pow_left radix.two_le 32))

/-- `itoa` writes the numeral of its value, and changes nothing else. -/
theorem itoa_eq (value : Word) (mem : ℕ → Byte) (buf : ℕ) (radix : Radix) :
    itoa value mem buf radix
      = writeString mem buf (numeral digit radix.word.toNat value.toNat) := by
  rw [itoa]
  by_cases hzero : value = 0
  · rw [if_pos hzero, hzero]
    rfl
  · have hne : value.toNat ≠ 0 := fun h => hzero (BitVec.eq_of_toNat_eq h)
    have hdigits := length_numeral_word radix value
    have hmem := zero_notMem_numeral radix value.toNat
    rw [numeral_of_ne_zero hne, List.length_reverse] at hdigits
    rw [numeral_of_ne_zero hne, List.mem_reverse] at hmem
    rw [if_neg hzero, itoaLoop_eq, numeral_of_ne_zero hne, ← strrev_writeString mem buf hmem
      (by omega), writeString, writeBytes_append, List.length_map]
    rfl

/-! ## Reading the digits back -/

/-- The characters `0` to `9` and `A` to `Z`. -/
def IsDigit (b : Byte) : Prop := chr '0' ≤ b ∧ b ≤ chr '9' ∨ chr 'A' ≤ b ∧ b ≤ chr 'Z'

instance (b : Byte) : Decidable (IsDigit b) := inferInstanceAs (Decidable (_ ∨ _))

/-- The value of a digit character. -/
def digitValue (b : Byte) : ℕ :=
  if b ≤ chr '9' then b.toNat - (chr '0').toNat else b.toNat - (chr 'A').toNat + 10

/-- `s` is a string of digits in base `r` that reads as `v`. -/
structure Denotes (r : ℕ) (s : List Byte) (v : ℕ) : Prop where
  digits : ∀ b ∈ s, IsDigit b ∧ digitValue b < r
  value : reading digitValue r s = v

theorem isDigit_digit {d : ℕ} (hd : d < 36) : IsDigit (digit d) := by
  revert d
  decide

theorem digitValue_digit {d : ℕ} (hd : d < 36) : digitValue (digit d) = d := by
  revert d
  decide

/-- A numeral denotes its value. -/
theorem denotes_numeral (radix : Radix) (v : ℕ) :
    Denotes radix.word.toNat (numeral digit radix.word.toNat v) v where
  digits b hb := by
    obtain ⟨d, hd, rfl⟩ := exists_of_mem_numeral radix.two_le hb
    have hd' : d < 36 := lt_of_lt_of_le hd radix.le
    exact ⟨isDigit_digit hd', (digitValue_digit hd').symm ▸ hd⟩
  value := reading_numeral (fun _ hd => digitValue_digit (lt_of_lt_of_le hd radix.le)) radix.two_le

/-- Zeros in front of a string of digits. -/
theorem Denotes.pad {r v : ℕ} {s : List Byte} (h : Denotes r s v) (hr : 0 < r) (k : ℕ) :
    Denotes r (List.replicate k (chr '0') ++ s) v where
  digits b hb := by
    rcases List.mem_append.mp hb with hzero | hs
    · rw [List.eq_of_mem_replicate hzero]
      exact ⟨by decide, hr⟩
    · exact h.digits b hs
  value := by
    have hzero : digitValue (chr '0') = 0 := rfl
    rw [reading_pad hzero, h.value]

/-- `s` is the string of digits that is written for `v`: it starts with a zero only when it is
`0`. -/
structure IsNumeral (r : ℕ) (s : List Byte) (v : ℕ) : Prop extends Denotes r s v where
  ne_nil : s ≠ []
  leading : s.head? = some (chr '0') → s = [chr '0']

theorem isNumeral_numeral (radix : Radix) (v : ℕ) :
    IsNumeral radix.word.toNat (numeral digit radix.word.toNat v) v where
  toDenotes := denotes_numeral radix v
  ne_nil := numeral_ne_nil
  leading :=
    numeral_of_head (fun _ hd => digitValue_digit (lt_of_lt_of_le hd radix.le)) radix.two_le

/-- What `itoa` writes is a string of at most 32 digits, the numeral of the value. -/
theorem itoa_isNumeral (value : Word) (mem : ℕ → Byte) (buf : ℕ) (radix : Radix) :
    ∃ t : List Byte, IsString (fun i => itoa value mem buf radix (buf + i)) t
      ∧ t.length ≤ 32 ∧ IsNumeral radix.word.toNat t value.toNat := by
  rw [itoa_eq]
  exact ⟨_, isString_writeString mem buf (zero_notMem_numeral radix value.toNat),
    length_numeral_word radix value, isNumeral_numeral radix value.toNat⟩

end HieUnix
