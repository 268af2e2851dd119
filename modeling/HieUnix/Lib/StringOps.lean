import HieUnix.Lib.Memory
import Mathlib.Logic.Function.Iterate

/-!
# String instructions

The registers, the direction flag and the memory that the string instructions of a 32-bit
processor work on, and the rules for what a run of them leaves: a run that moves upwards copies
a span as long as it reads each byte before it writes over it, and so does a run downwards.
A run composes with the next one whatever the instructions are (bytes, words, or plain moves),
so that a routine made of several loops is a chain of `trans`.
-/

/-- An offset past the first `k` bytes of a span. -/
theorem inSpan_add_iff {k l : ℕ} (b start : Word) (hlen : k + l ≤ 2 ^ 32) :
    InSpan b (start + BitVec.ofNat 32 k) l
      ↔ k ≤ (b - start).toNat ∧ (b - start).toNat < k + l := by
  have hx := (b - start).isLt
  rw [InSpan, ← BitVec.sub_sub, BitVec.toNat_sub, BitVec.toNat_ofNat]
  omega

/-- The offsets of two spans that lie the same distance on. -/
theorem add_sub_add (b dst src d : Word) : src + d + (b - (dst + d)) = src + (b - dst) := by
  rw [← BitVec.sub_sub, BitVec.add_assoc, BitVec.add_comm d, BitVec.sub_add_cancel]

namespace Memory

variable {m : Memory} {dst src : Word} {k l : ℕ}

/-! ## Copies -/

/-- Memory with the `len` bytes from `dst` on replaced by those from `src` on. -/
def copy (m : Memory) (dst src : Word) (len : ℕ) : Memory :=
  fun b => if InSpan b dst len then m (src + (b - dst)) else m b

@[simp] theorem copy_zero (m : Memory) (dst src : Word) : m.copy dst src 0 = m :=
  funext fun _ => if_neg (Nat.not_lt_zero _)

/-- A byte at an offset below the length is the one at that offset of the source. -/
theorem copy_of_lt (hk : k < l) :
    m.copy dst src l (dst + BitVec.ofNat 32 k) = m (src + BitVec.ofNat 32 k) := by
  have hoff : dst + BitVec.ofNat 32 k - dst = BitVec.ofNat 32 k := by
    rw [BitVec.add_comm, BitVec.add_sub_cancel]
  rw [copy, if_pos (inSpan_add_ofNat hk), hoff]

theorem copy_of_not_inSpan {b : Word} (h : ¬ InSpan b dst l) : m.copy dst src l b = m b :=
  if_neg h

/-- One byte moved. -/
theorem store8_eq_copy (m : Memory) (dst src : Word) :
    m.store8 dst (m src) = m.copy dst src 1 := by
  funext b
  by_cases hb : b = dst
  · have hin : InSpan b dst 1 := by rw [hb, InSpan]; simp
    have hsrc : src + (b - dst) = src := by rw [hb]; simp
    rw [copy, if_pos hin, hsrc, hb, store8_self]
  · have hout : ¬ InSpan b dst 1 := fun h => hb (by rw [InSpan] at h; bv_omega)
    rw [copy_of_not_inSpan hout, store8_of_ne _ _ hb]

/-- The four bytes of a word that was loaded. -/
theorem store32_inSpan (m : Memory) (dst v : Word) {b : Word} (h : InSpan b dst 4) :
    m.store32 dst v b = v.extractLsb' (8 * (b - dst).toNat) 8 := by
  have hcases : (b - dst).toNat = 0 ∨ (b - dst).toNat = 1 ∨ (b - dst).toNat = 2
      ∨ (b - dst).toNat = 3 := by
    rw [InSpan] at h
    omega
  rcases hcases with h0 | h1 | h2 | h3
  · have hb : b = dst := by bv_omega
    rw [h0, hb, store32, store8_of_ne _ _ (by bv_omega), store8_of_ne _ _ (by bv_omega),
      store8_of_ne _ _ (by bv_omega), store8_self]
  · have hb : b = dst + 1 := by bv_omega
    rw [h1, hb, store32, store8_of_ne _ _ (by bv_omega), store8_of_ne _ _ (by bv_omega),
      store8_self]
  · have hb : b = dst + 2 := by bv_omega
    rw [h2, hb, store32, store8_of_ne _ _ (by bv_omega), store8_self]
  · have hb : b = dst + 3 := by bv_omega
    rw [h3, hb, store32, store8_self]

/-- The bytes of the word at an address. -/
theorem extractLsb'_load32 (m : Memory) (a : Word) {i : ℕ} (hi : i < 4) :
    (m.load32 a).extractLsb' (8 * i) 8 = m (a + BitVec.ofNat 32 i) := by
  have hcases : i = 0 ∨ i = 1 ∨ i = 2 ∨ i = 3 := by omega
  have hzero : a + BitVec.ofNat 32 0 = a := BitVec.add_zero a
  rcases hcases with rfl | rfl | rfl | rfl <;>
  · rw [load32]
    ext j hj
    simp only [BitVec.getElem_extractLsb', BitVec.getLsbD_append, hzero]
    split_ifs <;> first | omega | (rw [BitVec.getLsbD_eq_getElem (by omega)]; congr 1; omega)

/-- One word moved is four bytes moved: the word is read before any of it is written. -/
theorem store32_eq_copy (m : Memory) (dst src : Word) :
    m.store32 dst (m.load32 src) = m.copy dst src 4 := by
  funext b
  by_cases hb : InSpan b dst 4
  · rw [store32_inSpan m dst _ hb, extractLsb'_load32 m src hb, copy, if_pos hb,
      BitVec.ofNat_toNat, BitVec.setWidth_eq]
  · rw [store32_of_not_inSpan _ _ hb, copy_of_not_inSpan hb]

/-- A span copied in two runs upwards, the second of which finds its source as it was. -/
theorem copy_add (hlen : k + l ≤ 2 ^ 32)
    (h : ∀ i < l, ¬ InSpan (src + BitVec.ofNat 32 (k + i)) dst k) :
    (m.copy dst src k).copy (dst + BitVec.ofNat 32 k) (src + BitVec.ofNat 32 k) l
      = m.copy dst src (k + l) := by
  funext b
  by_cases hin : InSpan b (dst + BitVec.ofNat 32 k) l
  · have hoff := (inSpan_add_iff b dst hlen).mp hin
    have hboth : InSpan b dst (k + l) := hoff.2
    obtain ⟨i, hi⟩ : ∃ i, (b - dst).toNat = k + i := Nat.exists_eq_add_of_le hoff.1
    have haddr : src + (b - dst) = src + BitVec.ofNat 32 (k + i) := by
      rw [← hi, BitVec.ofNat_toNat, BitVec.setWidth_eq]
    rw [copy, if_pos hin, add_sub_add, haddr, copy_of_not_inSpan (h i (by omega)), copy,
      if_pos hboth, haddr]
  · have hiff : InSpan b dst k ↔ InSpan b dst (k + l) := by
      rw [inSpan_add_iff b dst hlen] at hin
      unfold InSpan
      omega
    rw [copy_of_not_inSpan hin, copy, copy]
    simp only [hiff]

/-- A span copied in two runs downwards, the second of which finds its source as it was. -/
theorem copy_below (hlen : k + l ≤ 2 ^ 32)
    (h : ∀ i < k, ¬ InSpan (src + BitVec.ofNat 32 i) (dst + BitVec.ofNat 32 k) l) :
    (m.copy (dst + BitVec.ofNat 32 k) (src + BitVec.ofNat 32 k) l).copy dst src k
      = m.copy dst src (k + l) := by
  funext b
  by_cases hin : InSpan b dst k
  · have haddr : src + (b - dst) = src + BitVec.ofNat 32 (b - dst).toNat := by
      rw [BitVec.ofNat_toNat, BitVec.setWidth_eq]
    have hboth : InSpan b dst (k + l) := lt_of_lt_of_le hin (Nat.le_add_right k l)
    rw [copy, if_pos hin, haddr, copy_of_not_inSpan (h _ hin), copy, if_pos hboth, ← haddr]
  · have hiff : InSpan b (dst + BitVec.ofNat 32 k) l ↔ InSpan b dst (k + l) := by
      rw [inSpan_add_iff b dst hlen]
      unfold InSpan at hin ⊢
      omega
    rw [copy_of_not_inSpan hin, copy, copy, add_sub_add]
    simp only [hiff]

/-! ## Fills -/

@[simp] theorem fill_zero (m : Memory) (start : Word) (v : Byte) : m.fill start v 0 = m :=
  funext fun _ => if_neg (Nat.not_lt_zero _)

theorem store8_eq_fill (m : Memory) (start : Word) (v : Byte) :
    m.store8 start v = m.fill start v 1 := by
  funext b
  rw [store8, fill]
  congr 1
  unfold InSpan
  exact propext ⟨fun h => by rw [h]; simp, fun h => by bv_omega⟩

/-- One word of four equal bytes stored. -/
theorem store32_eq_fill (m : Memory) (start : Word) {w : Word} {v : Byte}
    (hw : ∀ i < 4, w.extractLsb' (8 * i) 8 = v) : m.store32 start w = m.fill start v 4 := by
  funext b
  by_cases hb : InSpan b start 4
  · rw [store32_inSpan m start w hb, fill, if_pos hb, hw _ hb]
  · rw [store32_of_not_inSpan _ _ hb, fill, if_neg hb]

/-- A span filled in two runs. -/
theorem fill_add (m : Memory) (start : Word) (v : Byte) (hlen : k + l ≤ 2 ^ 32) :
    (m.fill start v k).fill (start + BitVec.ofNat 32 k) v l = m.fill start v (k + l) := by
  funext b
  by_cases hk : InSpan b start k
  · have hboth : InSpan b start (k + l) := lt_of_lt_of_le hk (Nat.le_add_right k l)
    simp only [fill, if_pos hk, if_pos hboth, ite_self]
  · have hiff : InSpan b (start + BitVec.ofNat 32 k) l ↔ InSpan b start (k + l) := by
      rw [inSpan_add_iff b start hlen]
      unfold InSpan at hk ⊢
      omega
    simp only [fill, if_neg hk, hiff]

end Memory

/-! ## The instructions -/

/-- The registers, the flag and the memory that string instructions use. -/
structure StringCpu where
  eax : Word
  ecx : Word
  edx : Word
  esi : Word
  edi : Word
  /-- the direction flag: while it is set the pointers move down -/
  df : Bool
  memory : Memory

namespace StringCpu

variable {c c' c'' : StringCpu} {op : StringCpu → StringCpu} {w k l : ℕ}

def cld (c : StringCpu) : StringCpu := { c with df := false }

def std (c : StringCpu) : StringCpu := { c with df := true }

/-- How far a string instruction moves a pointer. -/
def stride (c : StringCpu) (width : Word) : Word := if c.df then -width else width

def movsb (c : StringCpu) : StringCpu :=
  { c with
    memory := c.memory.store8 c.edi (c.memory c.esi)
    esi := c.esi + c.stride 1
    edi := c.edi + c.stride 1 }

def movsl (c : StringCpu) : StringCpu :=
  { c with
    memory := c.memory.store32 c.edi (c.memory.load32 c.esi)
    esi := c.esi + c.stride 4
    edi := c.edi + c.stride 4 }

def stosl (c : StringCpu) : StringCpu :=
  { c with
    memory := c.memory.store32 c.edi c.eax
    edi := c.edi + c.stride 4 }

/-- The low byte of `eax`. -/
def al (c : StringCpu) : Byte := c.eax.extractLsb' 0 8

/-- `eax` with another low byte. -/
def setAl (c : StringCpu) (v : Byte) : StringCpu :=
  { c with eax := c.eax.extractLsb' 8 24 ++ v }

@[simp] theorem al_setAl (c : StringCpu) (v : Byte) : (c.setAl v).al = v := by
  rw [al, setAl, BitVec.extractLsb'_append_eq_right]

/-- One turn of a repeated instruction. -/
def repStep (op : StringCpu → StringCpu) (c : StringCpu) : StringCpu :=
  { op c with ecx := c.ecx - 1 }

/-- An instruction repeated until the counter is zero. -/
def rep (op : StringCpu → StringCpu) (c : StringCpu) : StringCpu := (repStep op)^[c.ecx.toNat] c

/-- What a repeated instruction leaves, from what each turn of it does. -/
theorem rep_rule {P : ℕ → StringCpu → Prop} (hzero : P 0 c)
    (hturn : ∀ k c', k < c.ecx.toNat → P k c' → P (k + 1) (repStep op c')) :
    P c.ecx.toNat (rep op c) := by
  have hturns : ∀ k ≤ c.ecx.toNat, P k ((repStep op)^[k] c) := by
    intro k
    induction k with
    | zero => exact fun _ => hzero
    | succ k ih =>
      intro hk
      rw [Function.iterate_succ_apply']
      exact hturn k _ hk (ih (by omega))
  exact hturns _ le_rfl

/-! ## Runs that copy upwards -/

/-- A copy upwards reads each byte before it writes over it. -/
def ReadsAhead (src dst : Word) (n : ℕ) : Prop :=
  ∀ i < n, ¬ InSpan (src + BitVec.ofNat 32 i) dst i

theorem ReadsAhead.mono {src dst : Word} (h : ReadsAhead src dst l) (hkl : k ≤ l) :
    ReadsAhead src dst k :=
  fun i hi => h i (lt_of_lt_of_le hi hkl)

/-- What is left of a copy upwards still reads ahead. -/
theorem ReadsAhead.drop {src dst : Word} (h : ReadsAhead src dst (k + l))
    (hlen : k + l ≤ 2 ^ 32) :
    ReadsAhead (src + BitVec.ofNat 32 k) (dst + BitVec.ofNat 32 k) l := by
  intro i hi hin
  rw [BitVec.add_assoc, ← BitVec.ofNat_add, inSpan_add_iff _ _ (by omega)] at hin
  exact h (k + i) (by omega) hin.2

/-- Spans that do not meet are read ahead. -/
theorem readsAhead_of_apart {src dst : Word} {n : ℕ}
    (h : ∀ i < n, ¬ InSpan (src + BitVec.ofNat 32 i) dst n) : ReadsAhead src dst n :=
  fun i hi hin => h i hi (lt_trans hin hi)

/-- An address of a span that does not wrap. -/
theorem toNat_add_ofNat {a : Word} {i n : ℕ} (hi : i < n) (ha : a.toNat + n ≤ 2 ^ 32) :
    (a + BitVec.ofNat 32 i).toNat = a.toNat + i := by
  rw [BitVec.toNat_add, BitVec.toNat_ofNat]
  omega

/-- A span that does not lie below the one it is copied to is read ahead. -/
theorem readsAhead_of_le {src dst : Word} {n : ℕ} (hle : dst ≤ src)
    (hsrc : src.toNat + n ≤ 2 ^ 32) : ReadsAhead src dst n := by
  intro i hi hin
  have haddr := toNat_add_ofNat hi hsrc
  have hle' : dst.toNat ≤ src.toNat := hle
  rw [InSpan, BitVec.toNat_sub, haddr] at hin
  omega

/-- From `c` to `c'` the next `n` bytes were copied and the pointers moved past them. -/
structure Copied (c c' : StringCpu) (n : ℕ) : Prop where
  memory : c'.memory = c.memory.copy c.edi c.esi n
  esi : c'.esi = c.esi + BitVec.ofNat 32 n
  edi : c'.edi = c.edi + BitVec.ofNat 32 n

theorem Copied.refl (c : StringCpu) : Copied c c 0 where
  memory := (Memory.copy_zero ..).symm
  esi := (BitVec.add_zero _).symm
  edi := (BitVec.add_zero _).symm

/-- Two runs one after the other are one run over both lengths. -/
theorem Copied.trans (h : Copied c c' k) (h' : Copied c' c'' l) (hlen : k + l ≤ 2 ^ 32)
    (hread : ReadsAhead c.esi c.edi (k + l)) : Copied c c'' (k + l) where
  memory := by
    rw [h'.memory, h.memory, h.edi, h.esi]
    refine Memory.copy_add hlen fun i hi hin => hread (k + i) (by omega) ?_
    exact lt_of_lt_of_le hin (Nat.le_add_right k i)
  esi := by rw [h'.esi, h.esi, BitVec.add_assoc, BitVec.ofNat_add]
  edi := by rw [h'.edi, h.edi, BitVec.add_assoc, BitVec.ofNat_add]

/-- An instruction that copies `w` bytes upwards while the direction flag is clear, and leaves
the flag and `edx` alone. -/
structure CopiesUp (op : StringCpu → StringCpu) (w : ℕ) : Prop where
  copied : ∀ c, c.df = false → Copied c (op c) w
  df : ∀ c, (op c).df = c.df
  edx : ∀ c, (op c).edx = c.edx

theorem copiesUp_movsb : CopiesUp movsb 1 where
  copied c hdf := by
    have hstride : c.stride 1 = BitVec.ofNat 32 1 := by simp [stride, hdf]
    exact ⟨Memory.store8_eq_copy .., congrArg (c.esi + ·) hstride, congrArg (c.edi + ·) hstride⟩
  df _ := rfl
  edx _ := rfl

theorem copiesUp_movsl : CopiesUp movsl 4 where
  copied c hdf := by
    have hstride : c.stride 4 = BitVec.ofNat 32 4 := by simp [stride, hdf]
    exact ⟨Memory.store32_eq_copy .., congrArg (c.esi + ·) hstride, congrArg (c.edi + ·) hstride⟩
  df _ := rfl
  edx _ := rfl

/-- A repeated instruction that copies upwards. -/
theorem CopiesUp.rep {n : ℕ} (hop : CopiesUp op w) (hdf : c.df = false) (hn : c.ecx.toNat = n)
    (hlen : w * n ≤ 2 ^ 32) (hread : ReadsAhead c.esi c.edi (w * n)) :
    Copied c (rep op c) (w * n) ∧ (rep op c).df = false ∧ (rep op c).edx = c.edx := by
  subst hn
  refine rep_rule (P := fun k c' => Copied c c' (w * k) ∧ c'.df = false ∧ c'.edx = c.edx)
    ⟨.refl c, hdf, rfl⟩ ?_
  intro k c' hk ⟨hcopied, hdf', hedx⟩
  have hle : w * k + w ≤ w * c.ecx.toNat := Nat.mul_le_mul_left w hk
  have hop' := hop.copied c' hdf'
  have hturn : Copied c' (repStep op c') w := ⟨hop'.memory, hop'.esi, hop'.edi⟩
  exact ⟨hcopied.trans hturn (by omega) (hread.mono hle), (hop.df c').trans hdf',
    (hop.edx c').trans hedx⟩

/-! ## Runs that copy downwards -/

/-- A copy downwards reads each byte before it writes over it. -/
def ReadsBehind (src dst : Word) (n : ℕ) : Prop :=
  ∀ i < n, ∀ j < i, src + BitVec.ofNat 32 j ≠ dst + BitVec.ofNat 32 i

/-- A span that lies below the one it is copied to is read behind. -/
theorem readsBehind_of_lt {src dst : Word} {n : ℕ} (hlt : src < dst)
    (hsrc : src.toNat + n ≤ 2 ^ 32) (hdst : dst.toNat + n ≤ 2 ^ 32) : ReadsBehind src dst n := by
  intro i hi j hj heq
  have hlt' : src.toNat < dst.toNat := hlt
  have haddr := congrArg BitVec.toNat heq
  rw [toNat_add_ofNat (lt_trans hj hi) hsrc, toNat_add_ofNat hi hdst] at haddr
  omega

/-- A byte that is read downwards is not among those written already. -/
theorem ReadsBehind.not_inSpan {src dst : Word} {n j : ℕ} (h : ReadsBehind src dst n)
    (hj : j + (k + 1) = n) :
    ¬ InSpan (src + BitVec.ofNat 32 j) (dst + BitVec.ofNat 32 (j + 1)) k := by
  intro hin
  obtain ⟨i, hi⟩ : ∃ i, (src + BitVec.ofNat 32 j - (dst + BitVec.ofNat 32 (j + 1))).toNat = i :=
    ⟨_, rfl⟩
  rw [InSpan, hi] at hin
  refine h (j + 1 + i) (by omega) j (by omega) ?_
  rw [BitVec.ofNat_add (j + 1), ← hi, BitVec.ofNat_toNat, BitVec.setWidth_eq, ← BitVec.add_assoc,
    BitVec.add_comm (dst + _), BitVec.sub_add_cancel]

/-- The byte move repeated with the direction flag set, from the last bytes of two spans. -/
theorem rep_movsb_down (src dst : Word) (hdf : c.df = true)
    (hesi : c.esi = src + c.ecx - 1) (hedi : c.edi = dst + c.ecx - 1)
    (hread : ReadsBehind src dst c.ecx.toNat) :
    (rep movsb c).memory = c.memory.copy dst src c.ecx.toNat ∧ (rep movsb c).df = true := by
  -- after `k` turns the last `k` bytes are copied
  let P : ℕ → StringCpu → Prop := fun k c' =>
    c'.memory = c.memory.copy (dst + BitVec.ofNat 32 (c.ecx.toNat - k))
        (src + BitVec.ofNat 32 (c.ecx.toNat - k)) k
      ∧ c'.esi = src + BitVec.ofNat 32 (c.ecx.toNat - k) - 1
      ∧ c'.edi = dst + BitVec.ofNat 32 (c.ecx.toNat - k) - 1 ∧ c'.df = true
  have hcount : c.ecx.toNat < 2 ^ 32 := c.ecx.isLt
  have hzero : P 0 c := by
    refine ⟨(Memory.copy_zero ..).symm, ?_, ?_, hdf⟩ <;>
    · rw [Nat.sub_zero, BitVec.ofNat_toNat, BitVec.setWidth_eq]
      assumption
  have hturn : ∀ k c', k < c.ecx.toNat → P k c' → P (k + 1) (repStep movsb c') := by
    rintro k c' hk ⟨hmem, hsi, hdi, hdf'⟩
    obtain ⟨j, hj⟩ : ∃ j, j + (k + 1) = c.ecx.toNat := ⟨_, Nat.sub_add_cancel hk⟩
    have hsub : c.ecx.toNat - k = j + 1 := by omega
    have hsub' : c.ecx.toNat - (k + 1) = j := by omega
    have hnext : ∀ p : Word, p + BitVec.ofNat 32 (j + 1) = p + BitVec.ofNat 32 j + 1 :=
      fun p => by rw [BitVec.ofNat_add, ← BitVec.add_assoc]; rfl
    have hstride : c'.stride 1 = -1 := if_pos hdf'
    rw [hsub, hnext, BitVec.add_sub_cancel] at hsi hdi
    rw [hsub] at hmem
    refine ⟨?_, ?_, ?_, hdf'⟩
    · have hclear : ∀ i < 1, ¬ InSpan (src + BitVec.ofNat 32 j + BitVec.ofNat 32 i)
          (dst + BitVec.ofNat 32 j + BitVec.ofNat 32 1) k := by
        intro i hi
        obtain rfl : i = 0 := by omega
        have h := hread.not_inSpan hj
        rw [hnext] at h
        simpa using h
      show c'.memory.store8 c'.edi (c'.memory c'.esi) = _
      rw [Memory.store8_eq_copy, hdi, hsi, hmem, hsub', hnext, hnext]
      exact (Memory.copy_below (by omega) hclear).trans (congrArg _ (Nat.add_comm 1 k))
    · show c'.esi + c'.stride 1 = _
      rw [hstride, hsi, hsub', BitVec.sub_eq_add_neg]
    · show c'.edi + c'.stride 1 = _
      rw [hstride, hdi, hsub', BitVec.sub_eq_add_neg]
  obtain ⟨hmem, -, -, hdf'⟩ := rep_rule (P := P) hzero hturn
  rw [Nat.sub_self] at hmem
  exact ⟨by simpa using hmem, hdf'⟩

/-! ## Runs that fill -/

/-- From `c` to `c'` the next `n` bytes were set to `al` and the pointer moved past them. -/
structure Filled (c c' : StringCpu) (n : ℕ) : Prop where
  memory : c'.memory = c.memory.fill c.edi c.al n
  edi : c'.edi = c.edi + BitVec.ofNat 32 n
  eax : c'.eax = c.eax

theorem Filled.refl (c : StringCpu) : Filled c c 0 where
  memory := (Memory.fill_zero ..).symm
  edi := (BitVec.add_zero _).symm
  eax := rfl

/-- Two runs one after the other are one run over both lengths. -/
theorem Filled.trans (h : Filled c c' k) (h' : Filled c' c'' l) (hlen : k + l ≤ 2 ^ 32) :
    Filled c c'' (k + l) where
  memory := by
    have hal : c'.al = c.al := by rw [al, al, h.eax]
    rw [h'.memory, h.memory, h.edi, hal]
    exact Memory.fill_add _ _ _ hlen
  edi := by rw [h'.edi, h.edi, BitVec.add_assoc, BitVec.ofNat_add]
  eax := h'.eax.trans h.eax

/-- The four bytes of a word are its lowest one. -/
def FourEqual (w : Word) : Prop := ∀ i < 4, w.extractLsb' (8 * i) 8 = w.extractLsb' 0 8

/-- The word store repeated with the direction flag clear. -/
theorem rep_stosl_filled {n : ℕ} (hdf : c.df = false) (hn : c.ecx.toNat = n)
    (heax : FourEqual c.eax) (hlen : 4 * n ≤ 2 ^ 32) :
    Filled c (rep stosl c) (4 * n) ∧ (rep stosl c).df = false ∧ (rep stosl c).edx = c.edx := by
  subst hn
  refine rep_rule (P := fun k c' => Filled c c' (4 * k) ∧ c'.df = false ∧ c'.edx = c.edx)
    ⟨.refl c, hdf, rfl⟩ ?_
  intro k c' hk ⟨hfilled, hdf', hedx⟩
  have hstride : c'.stride 4 = BitVec.ofNat 32 4 := by simp [stride, hdf']
  have hbytes : ∀ i < 4, c'.eax.extractLsb' (8 * i) 8 = c'.al := by
    rw [al, hfilled.eax]
    exact heax
  have hturn : Filled c' (repStep stosl c') 4 :=
    ⟨Memory.store32_eq_fill _ _ hbytes, congrArg (c'.edi + ·) hstride, rfl⟩
  exact ⟨hfilled.trans hturn (by omega), hdf', hedx⟩

end StringCpu
