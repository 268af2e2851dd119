import Mathlib.Data.BitVec
import Mathlib.Data.List.Basic
import Mathlib.Tactic.Common

/-!
# Byte memory with 32-bit addresses

A memory gives a byte for each 32-bit address. Words are four bytes, least significant first.
Address arithmetic wraps, so that a range of bytes is named by its first address and its
length, and `InSpan a start len` is membership in such a range.
-/

/-- A byte. -/
abbrev Byte := BitVec 8

/-- A 32-bit word, also an address. -/
abbrev Word := BitVec 32

/-- A memory. -/
abbrev Memory := Word → Byte

/-- `a` is one of the `len` addresses from `start` on. -/
def InSpan (a start : Word) (len : ℕ) : Prop := (a - start).toNat < len

instance (a start : Word) (len : ℕ) : Decidable (InSpan a start len) :=
  inferInstanceAs (Decidable (_ < _))

/-- An offset below the length is in the span. -/
theorem inSpan_add_ofNat {start : Word} {i len : ℕ} (hi : i < len) :
    InSpan (start + BitVec.ofNat 32 i) start len := by
  have hsub : start + BitVec.ofNat 32 i - start = BitVec.ofNat 32 i := by
    rw [BitVec.add_comm, BitVec.add_sub_cancel]
  rw [InSpan, hsub, BitVec.toNat_ofNat]
  exact lt_of_le_of_lt (Nat.mod_le i _) hi

namespace Memory

variable {m m' : Memory} {a b : Word}

/-! ## Bytes -/

/-- Memory with one byte changed. -/
def store8 (m : Memory) (a : Word) (v : Byte) : Memory := fun b => if b = a then v else m b

@[simp] theorem store8_self (m : Memory) (a : Word) (v : Byte) : m.store8 a v a = v := by
  simp [store8]

theorem store8_of_ne (m : Memory) (v : Byte) (h : b ≠ a) : m.store8 a v b = m b := by
  simp [store8, h]

/-- Memory with the `len` bytes from `start` on set to `v`. -/
def fill (m : Memory) (start : Word) (v : Byte) (len : ℕ) : Memory :=
  fun b => if InSpan b start len then v else m b

/-- Memory with the bytes at the offsets from `lo` up to `hi` after `start` taken from `f`. -/
def patch (m : Memory) (start : Word) (lo hi : ℕ) (f : ℕ → Byte) : Memory :=
  fun b => if lo ≤ (b - start).toNat ∧ (b - start).toNat < hi then f (b - start).toNat else m b

@[simp] theorem patch_self (m : Memory) (start : Word) (lo : ℕ) (f : ℕ → Byte) :
    m.patch start lo lo f = m := by
  funext b
  rw [patch, if_neg (by omega)]

/-- Storing the first byte of a patch and then patching the rest. -/
theorem patch_store8 (m : Memory) (start : Word) {lo hi : ℕ} (f : ℕ → Byte) (hlo : lo < hi)
    (hhi : hi ≤ 2 ^ 32) :
    (m.store8 (start + BitVec.ofNat 32 lo) (f lo)).patch start (lo + 1) hi f
      = m.patch start lo hi f := by
  have hlo' : (BitVec.ofNat 32 lo).toNat = lo := by
    rw [BitVec.toNat_ofNat, Nat.mod_eq_of_lt (by omega)]
  funext b
  rw [patch, patch]
  by_cases hb : b = start + BitVec.ofNat 32 lo
  · have hoff : (b - start).toNat = lo := by rw [hb]; bv_omega
    rw [if_neg (by omega), if_pos (by omega), hoff, hb, store8_self]
  · have hoff : (b - start).toNat ≠ lo := fun h => hb (by bv_omega)
    rw [store8_of_ne _ _ hb]
    congr 1
    exact propext (by omega)

/-- The bytes from `start` on, by offset. -/
def view (m : Memory) (start : Word) : ℕ → Byte := fun i => m (start + BitVec.ofNat 32 i)

theorem view_patch {start : Word} {lo hi j : ℕ} {f : ℕ → Byte} (h1 : lo ≤ j) (h2 : j < hi)
    (hhi : hi ≤ 2 ^ 32) : (m.patch start lo hi f).view start j = f j := by
  have hoff : (start + BitVec.ofNat 32 j - start).toNat = j := by
    rw [BitVec.add_comm, BitVec.add_sub_cancel, BitVec.toNat_ofNat, Nat.mod_eq_of_lt (by omega)]
  rw [view, patch, hoff, if_pos ⟨h1, h2⟩]

/-- The memory whose bytes from `start` on are given by offset. -/
def based (start : Word) (f : ℕ → Byte) : Memory := fun a => f (a - start).toNat

/-- A byte is the one at its offset. -/
theorem view_sub (m : Memory) (start a : Word) : m.view start (a - start).toNat = m a := by
  rw [view, BitVec.ofNat_toNat, BitVec.setWidth_eq, BitVec.add_comm, BitVec.sub_add_cancel]

/-- The `len` bytes from `start` on. -/
def bytes (m : Memory) (start : Word) (len : ℕ) : List Byte :=
  (List.range len).map (m.view start)

@[simp] theorem length_bytes (m : Memory) (start : Word) (len : ℕ) :
    (m.bytes start len).length = len := by
  simp [bytes]

@[simp] theorem getElem_bytes {start : Word} {len i : ℕ}
    (h : i < (m.bytes start len).length) :
    (m.bytes start len)[i] = m.view start i := by
  simp [bytes]

/-- The bytes of a patch are those it was made from. -/
theorem bytes_patch {start : Word} {hi n : ℕ} {f : ℕ → Byte} (hn : n ≤ hi)
    (hhi : hi ≤ 2 ^ 32) : (m.patch start 0 hi f).bytes start n = (List.range n).map f := by
  refine List.map_congr_left fun j hj => view_patch (Nat.zero_le j) ?_ hhi
  exact lt_of_lt_of_le (List.mem_range.mp hj) hn

/-- Storing the byte after a span adds it to the bytes of the span. -/
theorem bytes_store8 {n : ℕ} (hn : n < 2 ^ 32) (m : Memory) (start : Word) (v : Byte) :
    (m.store8 (start + BitVec.ofNat 32 n) v).bytes start (n + 1) = m.bytes start n ++ [v] := by
  rw [bytes, List.range_succ, List.map_append, bytes]
  congr 1
  · refine List.map_congr_left fun j hj => store8_of_ne _ _ ?_
    have hj' := List.mem_range.mp hj
    bv_omega
  · simp [view]

/-! ## Words -/

/-- The word at `a`. -/
def load32 (m : Memory) (a : Word) : Word := m (a + 3) ++ m (a + 2) ++ m (a + 1) ++ m a

/-- Memory with the word at `a` set to `v`. -/
def store32 (m : Memory) (a : Word) (v : Word) : Memory :=
  (((m.store8 a (v.extractLsb' 0 8)).store8 (a + 1) (v.extractLsb' 8 8)).store8
    (a + 2) (v.extractLsb' 16 8)).store8 (a + 3) (v.extractLsb' 24 8)

/-- A word store leaves every byte outside its four as it was. -/
theorem store32_of_not_inSpan (m : Memory) (v : Word) (h : ¬ InSpan b a 4) :
    m.store32 a v b = m b := by
  have hlt : 4 ≤ (b - a).toNat := Nat.le_of_not_lt h
  rw [store32, store8_of_ne _ _ (by bv_omega), store8_of_ne _ _ (by bv_omega),
    store8_of_ne _ _ (by bv_omega), store8_of_ne _ _ (by bv_omega)]

/-- A word store makes no two memories differ. -/
theorem store32_congr {n m : Memory} (v : Word) (h : n b = m b) :
    n.store32 a v b = m.store32 a v b := by
  simp only [store32, store8, h]

@[simp] theorem load32_store32_self (m : Memory) (a v : Word) :
    (m.store32 a v).load32 a = v := by
  have h0 : m.store32 a v a = v.extractLsb' 0 8 := by
    rw [store32, store8_of_ne _ _ (by bv_omega), store8_of_ne _ _ (by bv_omega),
      store8_of_ne _ _ (by bv_omega), store8_self]
  have h1 : m.store32 a v (a + 1) = v.extractLsb' 8 8 := by
    rw [store32, store8_of_ne _ _ (by bv_omega), store8_of_ne _ _ (by bv_omega), store8_self]
  have h2 : m.store32 a v (a + 2) = v.extractLsb' 16 8 := by
    rw [store32, store8_of_ne _ _ (by bv_omega), store8_self]
  have h3 : m.store32 a v (a + 3) = v.extractLsb' 24 8 := by
    rw [store32, store8_self]
  rw [load32, h0, h1, h2, h3]
  ext i hi
  simp only [BitVec.getElem_append, BitVec.getElem_extractLsb']
  split_ifs <;> · rw [← BitVec.getLsbD_eq_getElem]; congr 1; omega

/-- A word is its four bytes. -/
theorem load32_congr (h : ∀ i < 4, m' (a + BitVec.ofNat 32 i) = m (a + BitVec.ofNat 32 i)) :
    m'.load32 a = m.load32 a := by
  have h0 : m' a = m a := by simpa using h 0 (by omega)
  have h1 : m' (a + 1) = m (a + 1) := h 1 (by omega)
  have h2 : m' (a + 2) = m (a + 2) := h 2 (by omega)
  have h3 : m' (a + 3) = m (a + 3) := h 3 (by omega)
  rw [load32, load32, h0, h1, h2, h3]

/-- The first byte of a word. -/
theorem extractLsb'_zero_load32 (m : Memory) (a : Word) : (m.load32 a).extractLsb' 0 8 = m a := by
  rw [load32]
  ext i hi
  simp only [BitVec.getElem_extractLsb', BitVec.getLsbD_append]
  rw [if_pos (by omega), BitVec.getLsbD_eq_getElem (by omega)]
  congr 1
  omega

/-- The second byte of a word. -/
theorem extractLsb'_eight_load32 (m : Memory) (a : Word) :
    (m.load32 a).extractLsb' 8 8 = m (a + 1) := by
  rw [load32]
  ext i hi
  simp only [BitVec.getElem_extractLsb', BitVec.getLsbD_append]
  rw [if_neg (by omega), if_pos (by omega), BitVec.getLsbD_eq_getElem (by omega)]
  congr 1
  omega

/-- The second byte of a word below 256 is zero. -/
theorem byte_eq_zero_of_load32_lt (h : (m.load32 a).toNat < 256) : m (a + 1) = 0 := by
  rw [← extractLsb'_eight_load32 m a]
  apply BitVec.eq_of_toNat_eq
  rw [BitVec.extractLsb'_toNat, Nat.shiftRight_eq_div_pow]
  change (m.load32 a).toNat / 256 % 256 = 0
  omega

/-- Words four apart do not overlap. -/
theorem load32_store32_of_disjoint (m : Memory) (v : Word) (h : 4 ≤ (b - a).toNat)
    (h' : 4 ≤ (a - b).toNat) : (m.store32 a v).load32 b = m.load32 b := by
  refine load32_congr fun i hi => store32_of_not_inSpan m v ?_
  rw [InSpan]
  have hi' : (BitVec.ofNat 32 i).toNat = i := by
    rw [BitVec.toNat_ofNat, Nat.mod_eq_of_lt (by omega)]
  bv_omega

/-! ## Consecutive words -/

/-- The `n` words from `a` on. -/
def words (m : Memory) (a : Word) : ℕ → List Word
  | 0 => []
  | n + 1 => m.load32 a :: m.words (a + 4) n

@[simp] theorem length_words (m : Memory) (a : Word) (n : ℕ) : (m.words a n).length = n := by
  induction n generalizing a with
  | zero => rfl
  | succ n ih => rw [words, List.length_cons, ih]

/-- Consecutive words are their bytes. -/
theorem words_congr {n : ℕ} (hn : 4 * n ≤ 2 ^ 32)
    (h : ∀ b, InSpan b a (4 * n) → m' b = m b) : m'.words a n = m.words a n := by
  induction n generalizing a with
  | zero => rfl
  | succ n ih =>
    have hhead : m'.load32 a = m.load32 a := by
      apply load32_congr
      intro i hi
      exact h _ (inSpan_add_ofNat (by omega))
    have htail : m'.words (a + 4) n = m.words (a + 4) n := by
      apply ih (by omega)
      intro b hb
      apply h
      unfold InSpan at hb ⊢
      bv_omega
    rw [words, words, hhead, htail]

/-- The words behind the first `k`. -/
theorem drop_words (m : Memory) (a : Word) (k n : ℕ) :
    (m.words a (k + n)).drop k = m.words (a + BitVec.ofNat 32 (4 * k)) n := by
  induction k generalizing a with
  | zero =>
    rw [Nat.zero_add, List.drop_zero]
    exact congrArg (m.words · n) (BitVec.add_zero a).symm
  | succ k ih =>
    have hadd : a + 4 + BitVec.ofNat 32 (4 * k) = a + BitVec.ofNat 32 (4 * (k + 1)) := by
      rw [Nat.mul_succ, Nat.add_comm, BitVec.ofNat_add, BitVec.add_assoc]
      rfl
    rw [Nat.add_right_comm, words, List.drop_succ_cons, ih, hadd]

/-- A word stored just below a stack of words is its new top. -/
theorem words_push (m : Memory) (a v : Word) {n : ℕ} (hn : 4 * (n + 1) ≤ 2 ^ 32) :
    (m.store32 (a - 4) v).words (a - 4) (n + 1) = v :: m.words a n := by
  have hback : a - 4 + 4 = a := by bv_omega
  rw [words, load32_store32_self, hback]
  congr 1
  apply words_congr (by omega)
  intro b hb
  apply store32_of_not_inSpan
  unfold InSpan at hb ⊢
  bv_omega

/-- A store into a stack of words changes one of them. -/
theorem words_store32 (m : Memory) (a v : Word) {i n : ℕ} (hi : i < n) (hn : 4 * n ≤ 2 ^ 32) :
    (m.store32 (a + BitVec.ofNat 32 (4 * i)) v).words a n = (m.words a n).set i v := by
  induction n generalizing a i with
  | zero => omega
  | succ n ih =>
    cases i with
    | zero =>
      have htail : (m.store32 a v).words (a + 4) n = m.words (a + 4) n := by
        apply words_congr (by omega)
        intro b hb
        apply store32_of_not_inSpan
        unfold InSpan at hb ⊢
        bv_omega
      have hzero : a + BitVec.ofNat 32 (4 * 0) = a := BitVec.add_zero a
      rw [words, words, hzero, load32_store32_self, htail, List.set_cons_zero]
    | succ i =>
      have hsucc : a + BitVec.ofNat 32 (4 * (i + 1)) = a + 4 + BitVec.ofNat 32 (4 * i) := by
        bv_omega
      have hhead : (m.store32 (a + BitVec.ofNat 32 (4 * (i + 1))) v).load32 a = m.load32 a := by
        apply load32_store32_of_disjoint <;> bv_omega
      rw [words, words, hhead, List.set_cons_succ, hsucc, ih (a + 4) (by omega) (by omega)]

end Memory
