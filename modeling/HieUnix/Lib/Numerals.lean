import Mathlib.Data.Nat.Digits.Lemmas

/-!
# Numerals

Numbers written as strings of digits over an alphabet `α`, the most significant digit first:
`char d` is the digit that stands for `d`, and `value` is what a digit stands for. `Nat.digits`
has the least significant digit first and no digit at all for zero; a numeral is turned around
and writes zero as one digit.
-/

namespace Numerals

variable {α : Type*} {char : ℕ → α} {value : α → ℕ} {r v k : ℕ}

/-- The digits of `v`, the most significant first, as numbers. -/
def places (r v : ℕ) : List ℕ := (if v = 0 then [0] else Nat.digits r v).reverse

/-- The numeral of `v` in base `r`. -/
def numeral (char : ℕ → α) (r v : ℕ) : List α := (places r v).map char

/-- The number a string of digits reads as. -/
def reading (value : α → ℕ) (r : ℕ) (s : List α) : ℕ := s.foldl (fun n b => n * r + value b) 0

theorem places_of_ne_zero (hv : v ≠ 0) : places r v = (Nat.digits r v).reverse := by
  rw [places, if_neg hv]

theorem numeral_of_ne_zero (hv : v ≠ 0) :
    numeral char r v = ((Nat.digits r v).map char).reverse := by
  rw [numeral, places_of_ne_zero hv, List.map_reverse]

theorem numeral_zero : numeral char r 0 = [char 0] := rfl

theorem numeral_ne_nil : numeral char r v ≠ [] := by
  rw [numeral, ne_eq, List.map_eq_nil_iff]
  by_cases hv : v = 0
  · rw [places, if_pos hv]
    exact List.cons_ne_nil 0 []
  · rw [places_of_ne_zero hv, List.reverse_eq_nil_iff]
    exact Nat.digits_ne_nil_iff_ne_zero.mpr hv

theorem lt_of_mem_places (hr : 1 < r) {d : ℕ} (hd : d ∈ places r v) : d < r := by
  rw [places, List.mem_reverse] at hd
  split at hd
  · rw [List.mem_singleton.mp hd]
    exact Nat.zero_lt_of_lt hr
  · exact Nat.digits_lt_base hr hd

/-- The digits of a numeral stand for numbers below the base. -/
theorem exists_of_mem_numeral (hr : 1 < r) {b : α} (hb : b ∈ numeral char r v) :
    ∃ d < r, b = char d := by
  obtain ⟨d, hd, rfl⟩ := List.mem_map.mp hb
  exact ⟨d, lt_of_mem_places hr hd, rfl⟩

/-- A number below `r ^ k` has at most `k` digits. -/
theorem length_numeral_le (hr : 1 < r) (hk : 0 < k) (hv : v < r ^ k) :
    (numeral char r v).length ≤ k := by
  rw [numeral, List.length_map, places, List.length_reverse]
  split
  · exact hk
  · exact (Nat.digits_length_le_iff hr v).mpr hv

/-- No numeral but that of zero starts with the digit zero. -/
theorem eq_zero_of_head_places (h : (places r v).head? = some 0) : v = 0 := by
  by_contra hv
  have hne : Nat.digits r v ≠ [] := Nat.digits_ne_nil_iff_ne_zero.mpr hv
  rw [places_of_ne_zero hv, List.head?_reverse, List.getLast?_eq_some_getLast hne] at h
  exact Nat.getLast_digit_ne_zero r hv (Option.some.inj h)

section Values

variable (hvalue : ∀ d < r, value (char d) = d)

include hvalue in
theorem numeral_of_head (hr : 1 < r) (h : (numeral char r v).head? = some (char 0)) :
    numeral char r v = [char 0] := by
  obtain ⟨d, hd, hchar⟩ : ∃ d, (places r v).head? = some d ∧ char d = char 0 := by
    rwa [numeral, List.head?_map, Option.map_eq_some_iff] at h
  have hdr : d < r := lt_of_mem_places hr (List.mem_of_head? hd)
  have hzero : d = 0 := by
    rw [← hvalue d hdr, hchar, hvalue 0 (Nat.zero_lt_of_lt hr)]
  rw [hzero] at hd
  rw [eq_zero_of_head_places hd, numeral_zero]

/-- Reading digits is Horner's rule on their values. -/
theorem reading_eq_ofDigits (s : List α) :
    reading value r s = Nat.ofDigits r (s.reverse.map value) := by
  rw [reading, ← List.foldr_reverse, Nat.ofDigits_eq_foldr, List.foldr_map]
  congr 1
  funext b n
  rw [Nat.cast_id, Nat.mul_comm, Nat.add_comm]

include hvalue in
/-- A numeral reads as the number it was made from. -/
theorem reading_numeral (hr : 1 < r) : reading value r (numeral char r v) = v := by
  have hvalues : (places r v).reverse.map (value ∘ char) = (places r v).reverse := by
    conv_rhs => rw [← List.map_id (places r v).reverse]
    refine List.map_congr_left fun d hd => ?_
    exact hvalue d (lt_of_mem_places hr (List.mem_reverse.mp hd))
  rw [reading_eq_ofDigits, numeral, ← List.map_reverse, List.map_map, hvalues, places,
    List.reverse_reverse]
  split
  · subst v
    exact Nat.ofDigits_singleton
  · exact Nat.ofDigits_digits r v

/-- Zeros in front do not change what is read. -/
theorem reading_pad {b : α} (hb : value b = 0) (k : ℕ) (s : List α) :
    reading value r (List.replicate k b ++ s) = reading value r s := by
  induction k with
  | zero => rfl
  | succ k ih =>
    rw [List.replicate_succ, List.cons_append, ← ih, reading, List.foldl_cons, hb, Nat.zero_mul]
    rfl

end Values

end Numerals
