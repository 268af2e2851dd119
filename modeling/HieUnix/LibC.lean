import HieUnix.Types

/-!
# The string routines of `lib.c`

`strlen`, `strncmp`, `strcpy` and `strncpy`, on buffers given by offset. Each loop is a
recursion on what is left of its bound; the lemmas below say what the loop computes, and are
all that the file system uses.
-/

namespace HieUnix

open Function

/-! ## Strings -/

/-- A string literal. -/
def str (s : List Char) : List Byte := s.map chr

/-- `"shell"`. -/
def shell : List Byte := str ['s', 'h', 'e', 'l', 'l']

/-- A string in memory: its bytes from the start, and zero from its end on. -/
def cstr (s : List Byte) : ℕ → Byte := fun i => s.getD i 0

variable {f : ℕ → Byte} {s : List Byte} {j n : ℕ}

theorem cstr_eq_getElem (h : j < s.length) : cstr s j = s[j] := by
  rw [cstr, List.getD_eq_getElem?_getD, List.getElem?_eq_getElem h]
  rfl

theorem cstr_of_length_le (h : s.length ≤ j) : cstr s j = 0 := by
  rw [cstr, List.getD_eq_getElem?_getD, List.getElem?_eq_none h]
  rfl

theorem cstr_ne_zero (h0 : (0 : Byte) ∉ s) (h : j < s.length) : cstr s j ≠ 0 := by
  rw [cstr_eq_getElem h]
  intro hz
  rw [← hz] at h0
  exact h0 (List.getElem_mem h)

/-- `f` holds the string `s`, and a zero byte after it. -/
def IsString (f : ℕ → Byte) (s : List Byte) : Prop :=
  (0 : Byte) ∉ s ∧ ∀ j ≤ s.length, f j = cstr s j

theorem isString_cstr (h0 : (0 : Byte) ∉ s) : IsString (cstr s) s := ⟨h0, fun _ _ => rfl⟩

/-- The byte of a string at `n` begins what is left of it there. -/
theorem IsString.of_drop (hf : IsString f s) {x : Byte} {rest : List Byte}
    (h : s.drop n = x :: rest) :
    f n = x ∧ x ≠ 0 ∧ n < s.length ∧ s.drop (n + 1) = rest := by
  have hn : n < s.length := by
    by_contra hle
    rw [List.drop_eq_nil_of_le (Nat.le_of_not_lt hle)] at h
    cases h
  rw [List.drop_eq_getElem_cons hn] at h
  injection h with hx hrest
  rw [hf.2 n (Nat.le_of_lt hn), cstr_eq_getElem hn, hx]
  refine ⟨rfl, ?_, hn, hrest⟩
  rw [← hx, ← cstr_eq_getElem hn]
  exact cstr_ne_zero hf.1 hn

/-- It ends with a zero byte. -/
theorem IsString.eq_zero_of_drop (hf : IsString f s) (hn : n ≤ s.length) (h : s.drop n = []) :
    f n = 0 := by
  rw [hf.2 n hn, cstr_of_length_le (List.drop_eq_nil_iff.mp h)]

/-! ## `strlen` -/

/-- The loop of `strlen` from `len` on, over at most `fuel` more bytes. -/
def strlenLoop (s : ℕ → Byte) : ℕ → ℕ → ℕ
  | 0, len => len
  | fuel + 1, len => if s len ≠ 0 then strlenLoop s fuel (len + 1) else len

/-- `strlen` of a string in a buffer of `size` bytes; a string that does not end there has
length `size`. -/
def strlen (s : ℕ → Byte) (size : ℕ) : ℕ := strlenLoop s size 0

/-- `strlen` from `len` on counts up from `len`. -/
theorem le_strlenLoop (s : ℕ → Byte) (fuel len : ℕ) : len ≤ strlenLoop s fuel len := by
  induction fuel generalizing len with
  | zero => exact le_rfl
  | succ fuel ih =>
    rw [strlenLoop]
    split
    · exact Nat.le_of_succ_le (ih (len + 1))
    · exact le_rfl

/-- Below its length a string has no zero byte. -/
theorem ne_zero_of_lt_strlenLoop {s : ℕ → Byte} {fuel len l : ℕ} (hl : len ≤ l)
    (h : l < strlenLoop s fuel len) : s l ≠ 0 := by
  induction fuel generalizing len with
  | zero => exact absurd h (Nat.not_lt.mpr hl)
  | succ fuel ih =>
    rw [strlenLoop] at h
    split at h
    · rename_i hnz
      rcases Nat.eq_or_lt_of_le hl with rfl | hlt
      · exact hnz
      · exact ih hlt h
    · exact absurd h (Nat.not_lt.mpr hl)

/-- A string that ends within the bound ends with its zero byte. -/
theorem eq_zero_of_strlenLoop_lt {s : ℕ → Byte} {fuel len : ℕ}
    (h : strlenLoop s fuel len < len + fuel) : s (strlenLoop s fuel len) = 0 := by
  induction fuel generalizing len with
  | zero => exact absurd h (Nat.lt_irrefl len)
  | succ fuel ih =>
    rw [strlenLoop] at h ⊢
    split
    · rename_i hnz
      rw [if_pos hnz] at h
      exact ih (by omega)
    · rename_i hz
      exact not_not.mp hz

theorem strlenLoop_le (s : ℕ → Byte) (fuel len : ℕ) : strlenLoop s fuel len ≤ len + fuel := by
  induction fuel generalizing len with
  | zero => exact le_rfl
  | succ fuel ih =>
    rw [strlenLoop]
    split
    · have hle := ih (len + 1)
      omega
    · omega

theorem strlen_le (s : ℕ → Byte) (size : ℕ) : strlen s size ≤ size :=
  (strlenLoop_le s size 0).trans (Nat.le_of_eq (Nat.zero_add size))

/-- `strlen` stops at the first zero byte. -/
theorem strlenLoop_eq {s : ℕ → Byte} {fuel i n : ℕ} (hi : i ≤ n) (hn : n ≤ i + fuel)
    (hnz : ∀ j, i ≤ j → j < n → s j ≠ 0) (hz : n < i + fuel → s n = 0) :
    strlenLoop s fuel i = n := by
  induction fuel generalizing i with
  | zero =>
    rw [strlenLoop]
    omega
  | succ fuel ih =>
    rw [strlenLoop]
    rcases Nat.eq_or_lt_of_le hi with rfl | hlt
    · rw [if_neg (not_not_intro (hz (by omega)))]
    · rw [if_pos (hnz i (Nat.le_refl i) hlt)]
      exact ih hlt (by omega) (fun j h1 h2 => hnz j (by omega) h2) (fun h => hz (by omega))

/-! ## `strncmp` -/

/-- The loop of `strncmp` from `i` on. -/
def strncmpLoop (s1 s2 : ℕ → Byte) : ℕ → ℕ → ℤ
  | 0, _ => 0
  | n + 1, i =>
    if s1 i ≠ s2 i ∨ s1 i = 0 then (s1 i).toInt - (s2 i).toInt else strncmpLoop s1 s2 n (i + 1)

/-- `strncmp`. -/
def strncmp (s1 s2 : ℕ → Byte) (n : ℕ) : ℤ := strncmpLoop s1 s2 n 0

theorem strncmpLoop_eq_zero_iff {s1 s2 : ℕ → Byte} {n i : ℕ} :
    strncmpLoop s1 s2 n i = 0 ↔
      ∀ j, i ≤ j → j < i + n → (∀ k, i ≤ k → k < j → s1 k ≠ 0) → s1 j = s2 j := by
  induction n generalizing i with
  | zero => exact ⟨fun _ j h1 h2 => by omega, fun _ => rfl⟩
  | succ n ih =>
    rw [strncmpLoop]
    by_cases hne : s1 i = s2 i
    · by_cases hz : s1 i = 0
      -- both strings end here
      · rw [if_pos (Or.inr hz), hne, sub_self]
        refine ⟨fun _ j h1 _ hk => ?_, fun _ => rfl⟩
        rcases Nat.eq_or_lt_of_le h1 with rfl | hlt
        · exact hne
        · exact absurd hz (hk i le_rfl hlt)
      · rw [if_neg fun h => h.elim (fun h => h hne) hz, ih]
        constructor
        · intro h j h1 h2 hk
          rcases Nat.eq_or_lt_of_le h1 with rfl | hlt
          · exact hne
          · exact h j hlt (by omega) fun k hk1 hk2 => hk k (by omega) hk2
        · intro h j h1 h2 hk
          refine h j (by omega) (by omega) fun k hk1 hk2 => ?_
          rcases Nat.eq_or_lt_of_le hk1 with rfl | hlt
          · exact hz
          · exact hk k hlt hk2
    · rw [if_pos (Or.inl hne)]
      constructor
      · intro h
        exact absurd (BitVec.eq_of_toInt_eq (by omega)) hne
      · intro h
        exact absurd (h i le_rfl (by omega) fun k h1 h2 => by omega) hne

/-- `strncmp` returns 0 when the strings agree up to the first zero byte, or up to `n`. -/
theorem strncmp_eq_zero_iff {s1 s2 : ℕ → Byte} {n : ℕ} :
    strncmp s1 s2 n = 0 ↔ ∀ j < n, (∀ k < j, s1 k ≠ 0) → s1 j = s2 j := by
  rw [strncmp, strncmpLoop_eq_zero_iff]
  simp

/-! ## `strcpy` -/

/-- The loop of `strcpy` from `i` on, over at most `fuel` more bytes. -/
def strcpyLoop (src : ℕ → Byte) : ℕ → ℕ → (ℕ → Byte) → Option (ℕ → Byte)
  | 0, _, _ => none
  | fuel + 1, i, dest =>
    if src i ≠ 0 then strcpyLoop src fuel (i + 1) (update dest i (src i))
    else some (update dest i 0)

/-- `strcpy` to an object of `size` bytes. `none` when the string does not fit, where the code
writes past the object. -/
def strcpy (size : ℕ) (dest src : ℕ → Byte) : Option (ℕ → Byte) := strcpyLoop src size 0 dest

/-- The copy loop writes nothing below where it starts. -/
theorem strcpyLoop_of_lt {src dest d : ℕ → Byte} {fuel i j : ℕ}
    (h : strcpyLoop src fuel i dest = some d) (hj : j < i) : d j = dest j := by
  induction fuel generalizing i dest with
  | zero => cases h
  | succ fuel ih =>
    rw [strcpyLoop] at h
    split at h
    · rw [ih h (by omega), update_of_ne (by omega)]
    · rw [← Option.some.inj h, update_of_ne (by omega)]

/-- Nor past the first zero byte of the string. -/
theorem strcpyLoop_of_gt {src dest d : ℕ → Byte} {fuel i j z : ℕ}
    (h : strcpyLoop src fuel i dest = some d) (hi : i ≤ z) (hz : src z = 0) (hj : z < j) :
    d j = dest j := by
  induction fuel generalizing i dest with
  | zero => cases h
  | succ fuel ih =>
    rw [strcpyLoop] at h
    split at h
    · rename_i hnz
      have hne : i ≠ z := by
        rintro rfl
        exact hnz hz
      rw [ih h (by omega), update_of_ne (by omega)]
    · rw [← Option.some.inj h, update_of_ne (by omega)]

theorem strcpyLoop_apply {src dest d : ℕ → Byte} {fuel i : ℕ}
    (h : strcpyLoop src fuel i dest = some d) {j : ℕ} (hj : i ≤ j)
    (hnz : ∀ k, i ≤ k → k < j → src k ≠ 0) : d j = src j := by
  induction fuel generalizing i dest with
  | zero => cases h
  | succ fuel ih =>
    rw [strcpyLoop] at h
    split at h
    · rename_i hi
      rcases Nat.eq_or_lt_of_le hj with rfl | hlt
      · rw [strcpyLoop_of_lt h (by omega), update_self]
      · exact ih h hlt fun k h1 h2 => hnz k (by omega) h2
    · rename_i hi
      rcases Nat.eq_or_lt_of_le hj with rfl | hlt
      · rw [← Option.some.inj h, update_self, not_not.mp hi]
      · exact absurd (not_not.mp hi) (hnz i le_rfl hlt)

/-- A copy that fits agrees with the source up to and including its first zero byte. -/
theorem strcpy_apply {size : ℕ} {dest src d : ℕ → Byte} (h : strcpy size dest src = some d)
    {j : ℕ} (hnz : ∀ k < j, src k ≠ 0) : d j = src j :=
  strcpyLoop_apply h (Nat.zero_le j) fun k _ hk => hnz k hk

/-! ## `strncpy` -/

/-- The second loop of `strncpy`, which pads with zero bytes. -/
def strncpyPad : ℕ → ℕ → (ℕ → Byte) → ℕ → Byte
  | 0, _, dest => dest
  | n + 1, i, dest => strncpyPad n (i + 1) (update dest i 0)

/-- The first loop of `strncpy`, which copies, and then the second. -/
def strncpyCopy (src : ℕ → Byte) : ℕ → ℕ → (ℕ → Byte) → ℕ → Byte
  | 0, _, dest => dest
  | n + 1, i, dest =>
    if src i ≠ 0 then strncpyCopy src n (i + 1) (update dest i (src i))
    else strncpyPad (n + 1) i dest

/-- `strncpy`. -/
def strncpy (dest src : ℕ → Byte) (n : ℕ) : ℕ → Byte := strncpyCopy src n 0 dest

theorem strncpyPad_apply (n i : ℕ) (dest : ℕ → Byte) (j : ℕ) :
    strncpyPad n i dest j = if i ≤ j ∧ j < i + n then 0 else dest j := by
  induction n generalizing i dest with
  | zero => rw [strncpyPad, if_neg (by omega)]
  | succ n ih =>
    rw [strncpyPad, ih]
    rcases eq_or_ne j i with rfl | hj
    · rw [if_neg (by omega), update_self, if_pos (by omega)]
    · rw [update_of_ne hj]
      congr 1
      exact propext (by omega)

theorem strncpyCopy_of_outside {src dest : ℕ → Byte} {n i j : ℕ} (hj : j < i ∨ i + n ≤ j) :
    strncpyCopy src n i dest j = dest j := by
  induction n generalizing i dest with
  | zero => rfl
  | succ n ih =>
    rw [strncpyCopy]
    split
    · rw [ih (by omega), update_of_ne (by omega)]
    · rw [strncpyPad_apply, if_neg (by omega)]

theorem strncpyCopy_of_inside {src dest : ℕ → Byte} {n i j : ℕ} (hij : i ≤ j) (hj : j < i + n) :
    strncpyCopy src n i dest j = if ∀ k, i ≤ k → k ≤ j → src k ≠ 0 then src j else 0 := by
  induction n generalizing i dest with
  | zero => omega
  | succ n ih =>
    rw [strncpyCopy]
    by_cases hi : src i ≠ 0
    · rw [if_pos hi]
      rcases Nat.eq_or_lt_of_le hij with rfl | hlt
      · rw [strncpyCopy_of_outside (by omega), update_self, if_pos]
        intro k h1 h2
        rwa [show k = i by omega]
      · rw [ih hlt (by omega)]
        congr 1
        refine propext ⟨fun h k h1 h2 => ?_, fun h k h1 h2 => h k (by omega) h2⟩
        rcases Nat.eq_or_lt_of_le h1 with rfl | hk
        · exact hi
        · exact h k hk h2
    · rw [if_neg hi, strncpyPad_apply, if_pos (by omega), if_neg]
      exact fun h => hi (h i le_rfl hij)

/-- `strncpy` copies up to the first zero byte and pads with zero bytes up to `n`. -/
theorem strncpy_of_lt {dest src : ℕ → Byte} {n j : ℕ} (hj : j < n) :
    strncpy dest src n j = if ∀ k ≤ j, src k ≠ 0 then src j else 0 := by
  rw [strncpy, strncpyCopy_of_inside (Nat.zero_le j) (by omega)]
  simp

end HieUnix
