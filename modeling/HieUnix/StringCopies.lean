import HieUnix.Lib.StringOps
import HieUnix.Screen

/-!
# The copying routines of the C library

`memset`, `memcpy` and `memmove` of `lib.c`, which are inline assembly: the registers a routine
is entered with, and its instructions up to the last one. The moves of the segment registers
(`movw %ds, %dx`, `movw %dx, %es`) write a register that is loaded again before it is read, and
are left out.
-/

namespace HieUnix

namespace StringCopies

open StringCpu

variable {c c' : StringCpu} {k : ℕ}

/-! ## `memcpy` -/

/-- One byte moved through `al`, as both byte loops of `memcpy` move it. -/
def moveByte (c : StringCpu) : StringCpu :=
  let c := c.setAl (c.memory c.esi)
  let c := { c with memory := c.memory.store8 c.edi c.al }
  { c with edi := c.edi + 1, esi := c.esi + 1 }

theorem sub_one_toNat_lt {x : Word} (h : ¬ x = 0) : (x - 1).toNat < x.toNat := by
  bv_omega

/-- `.memcpy_top`: bytes are moved until none is left or the destination is aligned. -/
def memcpyTop (c : StringCpu) : StringCpu :=
  if c.ecx = 0 then c
  else if c.edi &&& 3 = 0 then c
  else memcpyTop { moveByte c with ecx := c.ecx - 1 }
termination_by c.ecx.toNat
decreasing_by exact sub_one_toNat_lt ‹_›

/-- `.memcpy_bottom`: the bytes that the words left over. -/
def memcpyBottom (c : StringCpu) : StringCpu :=
  if c.edx = 0 then c
  else memcpyBottom { moveByte c with edx := c.edx - 1 }
termination_by c.edx.toNat
decreasing_by exact sub_one_toNat_lt ‹_›

/-- `.memcpy_aligned`: the words, and then the bytes left over. -/
def memcpyAligned (c : StringCpu) : StringCpu :=
  let c := { c with edx := c.ecx }
  let c := { c with ecx := c.ecx >>> 2 }
  let c := { c with edx := c.edx &&& 3 }
  memcpyBottom (rep movsl c.cld)

def memcpy (c : StringCpu) (dest src n : Word) : StringCpu :=
  let c := memcpyTop { c with esi := src, edi := dest, ecx := n }
  if c.ecx = 0 then c else memcpyAligned c

/-! ## `memset` -/

/-- One byte stored, as both byte loops of `memset` store it. -/
def storeByte (c : StringCpu) : StringCpu :=
  let c := { c with memory := c.memory.store8 c.edi c.al }
  { c with edi := c.edi + 1 }

/-- `.memset_top`: bytes are stored until none is left or the destination is aligned. -/
def memsetTop (c : StringCpu) : StringCpu :=
  if c.ecx = 0 then c
  else if c.edi &&& 3 = 0 then c
  else memsetTop { storeByte c with ecx := c.ecx - 1 }
termination_by c.ecx.toNat
decreasing_by exact sub_one_toNat_lt ‹_›

/-- `.memset_bottom`: the bytes that the words left over. -/
def memsetBottom (c : StringCpu) : StringCpu :=
  if c.edx = 0 then c
  else memsetBottom { storeByte c with edx := c.edx - 1 }
termination_by c.edx.toNat
decreasing_by exact sub_one_toNat_lt ‹_›

/-- `.memset_aligned`: the words, and then the bytes left over. -/
def memsetAligned (c : StringCpu) : StringCpu :=
  let c := { c with edx := c.ecx }
  let c := { c with ecx := c.ecx >>> 2 }
  let c := { c with edx := c.edx &&& 3 }
  memsetBottom (rep stosl c.cld)

/-- `memset`; `v` is the fill value, of which the low byte is stored. -/
def memset (c : StringCpu) (s v n : Word) : StringCpu :=
  let v := v &&& 0xFF
  let c := memsetTop
    { c with eax := v <<< 24 ||| v <<< 16 ||| v <<< 8 ||| v, edi := s, ecx := n }
  if c.ecx = 0 then c else memsetAligned c

/-! ## `memmove` -/

/-- `memmove`: downwards from the last bytes when the source lies below the destination. -/
def memmove (c : StringCpu) (dest src n : Word) : StringCpu :=
  let c := { c with edi := dest, esi := src, ecx := n }
  let c := c.cld
  let c :=
    if c.edi ≤ c.esi then c
    else { c with esi := c.esi + c.ecx - 1, edi := c.edi + c.ecx - 1 }.std
  rep movsb c

/-! ## The byte loops -/

theorem moveByte_copied (c : StringCpu) : Copied c (moveByte c) 1 where
  memory := by
    rw [← Memory.store8_eq_copy]
    show (c.memory.store8 c.edi (c.setAl (c.memory c.esi)).al) = _
    rw [al_setAl]
  esi := rfl
  edi := rfl

theorem storeByte_filled (c : StringCpu) : Filled c (storeByte c) 1 where
  memory := Memory.store8_eq_fill ..
  edi := rfl
  eax := rfl

theorem toNat_eq_one_add {x : Word} (hx : ¬ x = 0) : x.toNat = 1 + (x - 1).toNat := by
  bv_omega

/-- The bytes before the words: some of those to be copied, the counter down by as many. -/
theorem memcpyTop_copied (c : StringCpu) (hread : ReadsAhead c.esi c.edi c.ecx.toNat) :
    ∃ k, k + (memcpyTop c).ecx.toNat = c.ecx.toNat ∧ Copied c (memcpyTop c) k := by
  induction c using memcpyTop.induct with
  | case1 c hecx =>
    rw [memcpyTop, if_pos hecx]
    exact ⟨0, Nat.zero_add _, .refl c⟩
  | case2 c hecx hedi =>
    rw [memcpyTop, if_neg hecx, if_pos hedi]
    exact ⟨0, Nat.zero_add _, .refl c⟩
  | case3 c hecx hedi ih =>
    have hcount := toNat_eq_one_add hecx
    have hlt : c.ecx.toNat < 2 ^ 32 := c.ecx.isLt
    rw [hcount] at hread
    obtain ⟨k, hk, hrest⟩ := ih (hread.drop (by omega))
    rw [memcpyTop, if_neg hecx, if_neg hedi]
    refine ⟨1 + k, ?_, ?_⟩
    · rw [hcount, Nat.add_assoc]
      exact congrArg (1 + ·) hk
    · have hk' : k ≤ (c.ecx - 1).toNat := Nat.le.intro hk
      exact (moveByte_copied c).trans ⟨hrest.memory, hrest.esi, hrest.edi⟩ (by omega)
        (hread.mono (by omega))

/-- The bytes after the words. -/
theorem memcpyBottom_copied (c : StringCpu) (hread : ReadsAhead c.esi c.edi c.edx.toNat) :
    Copied c (memcpyBottom c) c.edx.toNat := by
  induction c using memcpyBottom.induct with
  | case1 c hedx =>
    rw [memcpyBottom, if_pos hedx, hedx]
    exact .refl c
  | case2 c hedx ih =>
    have hcount := toNat_eq_one_add hedx
    have hlt : c.edx.toNat < 2 ^ 32 := c.edx.isLt
    rw [hcount] at hread ⊢
    have hrest := ih (hread.drop (by omega))
    rw [memcpyBottom, if_neg hedx]
    exact (moveByte_copied c).trans ⟨hrest.memory, hrest.esi, hrest.edi⟩ (by omega) hread

/-- The bytes before the words, as in `memcpyTop_copied`. -/
theorem memsetTop_filled (c : StringCpu) :
    ∃ k, k + (memsetTop c).ecx.toNat = c.ecx.toNat ∧ Filled c (memsetTop c) k := by
  induction c using memsetTop.induct with
  | case1 c hecx =>
    rw [memsetTop, if_pos hecx]
    exact ⟨0, Nat.zero_add _, .refl c⟩
  | case2 c hecx hedi =>
    rw [memsetTop, if_neg hecx, if_pos hedi]
    exact ⟨0, Nat.zero_add _, .refl c⟩
  | case3 c hecx hedi ih =>
    have hcount := toNat_eq_one_add hecx
    have hlt : c.ecx.toNat < 2 ^ 32 := c.ecx.isLt
    obtain ⟨k, hk, hrest⟩ := ih
    rw [memsetTop, if_neg hecx, if_neg hedi]
    refine ⟨1 + k, ?_, ?_⟩
    · rw [hcount, Nat.add_assoc]
      exact congrArg (1 + ·) hk
    · have hk' : k ≤ (c.ecx - 1).toNat := Nat.le.intro hk
      exact (storeByte_filled c).trans ⟨hrest.memory, hrest.edi, hrest.eax⟩ (by omega)

/-- The bytes after the words. -/
theorem memsetBottom_filled (c : StringCpu) : Filled c (memsetBottom c) c.edx.toNat := by
  induction c using memsetBottom.induct with
  | case1 c hedx =>
    rw [memsetBottom, if_pos hedx, hedx]
    exact .refl c
  | case2 c hedx ih =>
    have hcount := toNat_eq_one_add hedx
    have hlt : c.edx.toNat < 2 ^ 32 := c.edx.isLt
    rw [hcount, memsetBottom, if_neg hedx]
    exact (storeByte_filled c).trans ⟨ih.memory, ih.edi, ih.eax⟩ (by omega)

/-! ## The whole routines -/

/-- The words and the bytes left over make up the counter. -/
theorem shift_and_parts (x : Word) :
    4 * (x >>> 2).toNat + (x &&& 3).toNat = x.toNat := by
  have hand : (x &&& 3).toNat = x.toNat % 4 := by
    rw [BitVec.toNat_and]
    exact Nat.and_two_pow_sub_one_eq_mod x.toNat 2
  rw [BitVec.toNat_ushiftRight, Nat.shiftRight_eq_div_pow, hand]
  omega

theorem memcpyAligned_copied (c : StringCpu) (hread : ReadsAhead c.esi c.edi c.ecx.toNat) :
    Copied c (memcpyAligned c) c.ecx.toNat := by
  have hparts := shift_and_parts c.ecx
  have hlt : c.ecx.toNat < 2 ^ 32 := c.ecx.isLt
  rw [← hparts] at hread ⊢
  let w := rep movsl { c with edx := c.ecx &&& 3, ecx := c.ecx >>> 2, df := false }
  obtain ⟨hwords, -, hedx⟩ : Copied c w (4 * (c.ecx >>> 2).toNat) ∧ w.df = false
      ∧ w.edx = c.ecx &&& 3 := by
    obtain ⟨hcopied, hrest⟩ := copiesUp_movsl.rep
      (c := { c with edx := c.ecx &&& 3, ecx := c.ecx >>> 2, df := false })
      (n := (c.ecx >>> 2).toNat) rfl rfl (by omega)
      (hread.mono (Nat.le_add_right _ _))
    exact ⟨⟨hcopied.memory, hcopied.esi, hcopied.edi⟩, hrest⟩
  -- the bytes left over are those after the words
  have hleft : ReadsAhead w.esi w.edi w.edx.toNat := by
    rw [hwords.esi, hwords.edi, hedx]
    exact hread.drop (by omega)
  have hbytes := memcpyBottom_copied w hleft
  rw [hedx] at hbytes
  exact hwords.trans hbytes (by omega) hread

theorem memsetAligned_filled (c : StringCpu) (heax : FourEqual c.eax) :
    Filled c (memsetAligned c) c.ecx.toNat := by
  have hparts := shift_and_parts c.ecx
  have hlt : c.ecx.toNat < 2 ^ 32 := c.ecx.isLt
  rw [← hparts]
  let w := rep stosl { c with edx := c.ecx &&& 3, ecx := c.ecx >>> 2, df := false }
  obtain ⟨hwords, -, hedx⟩ : Filled c w (4 * (c.ecx >>> 2).toNat) ∧ w.df = false
      ∧ w.edx = c.ecx &&& 3 := by
    obtain ⟨hfilled, hrest⟩ := rep_stosl_filled
      (c := { c with edx := c.ecx &&& 3, ecx := c.ecx >>> 2, df := false })
      (n := (c.ecx >>> 2).toNat) rfl rfl heax (by omega)
    exact ⟨⟨hfilled.memory, hfilled.edi, hfilled.eax⟩, hrest⟩
  have hbytes := memsetBottom_filled w
  rw [hedx] at hbytes
  exact hwords.trans hbytes (by omega)

/-- `memcpy` copies the span whenever it reads ahead of its writes. -/
theorem memory_memcpy (c : StringCpu) {dest src n : Word}
    (hread : ReadsAhead src dest n.toNat) :
    (memcpy c dest src n).memory = c.memory.copy dest src n.toNat := by
  let c' := memcpyTop { c with esi := src, edi := dest, ecx := n }
  obtain ⟨k, hk, htop⟩ := memcpyTop_copied { c with esi := src, edi := dest, ecx := n } hread
  have hlt : n.toNat < 2 ^ 32 := n.isLt
  change k + c'.ecx.toNat = n.toNat at hk
  rw [memcpy]
  by_cases hdone : c'.ecx = 0
  · have hkn : k = n.toNat := by simpa [hdone] using hk
    rw [if_pos hdone, htop.memory, hkn]
  · have hleft : ReadsAhead c'.esi c'.edi c'.ecx.toNat := by
      rw [htop.esi, htop.edi]
      exact ReadsAhead.drop (hk ▸ hread) (by omega)
    rw [if_neg hdone, (htop.trans (memcpyAligned_copied c' hleft) (by omega) (hk ▸ hread)).memory,
      hk]

theorem getLsbD_and_255 (v : Word) (j : ℕ) :
    (v &&& 0xFF).getLsbD j = (v.getLsbD j && decide (j < 8)) := by
  have hmask : (0xFF : Word).getLsbD j = decide (j < 8) := by
    show (2 ^ 8 - 1).testBit j = _
    rw [Nat.testBit_two_pow_sub_one]
  rw [BitVec.getLsbD_and, hmask]

/-- Each byte of the fill word is the low byte of the fill value. -/
theorem extractLsb'_fillWord (v : Word) {i : ℕ} (hi : i < 4) :
    ((v &&& 0xFF) <<< 24 ||| (v &&& 0xFF) <<< 16 ||| (v &&& 0xFF) <<< 8
      ||| (v &&& 0xFF)).extractLsb' (8 * i) 8 = v.setWidth 8 := by
  have hcases : i = 0 ∨ i = 1 ∨ i = 2 ∨ i = 3 := by omega
  ext j hj
  simp only [BitVec.getElem_extractLsb', BitVec.getLsbD_or, BitVec.getLsbD_shiftLeft,
    getLsbD_and_255, BitVec.getElem_setWidth]
  rcases hcases with rfl | rfl | rfl | rfl <;> simp <;> grind

/-- `memset` fills the span with the low byte of its value. -/
theorem memory_memset (c : StringCpu) (s v n : Word) :
    (memset c s v n).memory = c.memory.fill s (v.setWidth 8) n.toNat := by
  let c₀ : StringCpu :=
    { c with eax := (v &&& 0xFF) <<< 24 ||| (v &&& 0xFF) <<< 16 ||| (v &&& 0xFF) <<< 8
              ||| (v &&& 0xFF), edi := s, ecx := n }
  let c' := memsetTop c₀
  obtain ⟨k, hk, htop⟩ : ∃ k, k + c'.ecx.toNat = n.toNat ∧ Filled c₀ c' k := memsetTop_filled c₀
  have hlt : n.toNat < 2 ^ 32 := n.isLt
  have hal : c₀.al = v.setWidth 8 := extractLsb'_fillWord v (Nat.zero_lt_succ 3)
  have hequal : FourEqual c'.eax := by
    rw [htop.eax]
    exact fun i hi => (extractLsb'_fillWord v hi).trans hal.symm
  show (if c'.ecx = 0 then c' else memsetAligned c').memory = _
  rw [← hal]
  by_cases hdone : c'.ecx = 0
  · have hkn : k = n.toNat := by simpa [hdone] using hk
    rw [if_pos hdone, htop.memory, hkn]
  · rw [if_neg hdone, (htop.trans (memsetAligned_filled c' hequal) (by omega)).memory, hk]

theorem memmove_up (c : StringCpu) {dest src : Word} (n : Word) (h : dest ≤ src) :
    memmove c dest src n = rep movsb { c with edi := dest, esi := src, ecx := n, df := false } :=
  congrArg (rep movsb) (if_pos h)

theorem memmove_down (c : StringCpu) {dest src : Word} (n : Word) (h : ¬ dest ≤ src) :
    memmove c dest src n = rep movsb
      { c with edi := dest + n - 1, esi := src + n - 1, ecx := n, df := true } :=
  congrArg (rep movsb) (if_neg h)

/-- `memmove` copies the span whatever the overlap, and leaves the direction flag set when it
worked downwards. -/
theorem memmove_spec (c : StringCpu) {dest src n : Word} (hsrc : src.toNat + n.toNat ≤ 2 ^ 32)
    (hdest : dest.toNat + n.toNat ≤ 2 ^ 32) :
    (memmove c dest src n).memory = c.memory.copy dest src n.toNat
      ∧ ((memmove c dest src n).df = false ↔ dest ≤ src) := by
  by_cases hle : dest ≤ src
  -- upwards, a byte is read before its place is written over
  · obtain ⟨hcopied, hdf, -⟩ := copiesUp_movsb.rep
      (c := { c with edi := dest, esi := src, ecx := n, df := false }) (n := n.toNat) rfl rfl
      (by have := n.isLt; omega) (by rw [Nat.one_mul]; exact readsAhead_of_le hle hsrc)
    rw [Nat.one_mul] at hcopied
    rw [memmove_up c n hle]
    exact ⟨hcopied.memory, iff_of_true hdf hle⟩
  · have hlt : src < dest := BitVec.not_le.mp hle
    obtain ⟨hmem, hdf⟩ := rep_movsb_down src dest
      (c := { c with edi := dest + n - 1, esi := src + n - 1, ecx := n, df := true }) rfl rfl rfl
      (readsBehind_of_lt hlt hsrc hdest)
    rw [memmove_down c n hle]
    exact ⟨hmem, iff_of_false (by rw [hdf]; decide) hle⟩

/-! ## What the callers get -/

/-- From `c` to `c'` the `n` bytes from `dest` on became those that `c` has from `src` on, and
no other byte changed. -/
def CopiedTo (c c' : StringCpu) (dest src n : Word) : Prop :=
  (∀ i < n.toNat, c'.memory (dest + BitVec.ofNat 32 i) = c.memory (src + BitVec.ofNat 32 i))
    ∧ ∀ a, ¬ InSpan a dest n.toNat → c'.memory a = c.memory a

/-- From `c` to `c'` the `n` bytes from `s` on became `v`, and no other byte changed. -/
def FilledWith (c c' : StringCpu) (s : Word) (v : Byte) (n : Word) : Prop :=
  (∀ i < n.toNat, c'.memory (s + BitVec.ofNat 32 i) = v)
    ∧ ∀ a, ¬ InSpan a s n.toNat → c'.memory a = c.memory a

theorem copiedTo_of_memory {dest src n : Word}
    (h : c'.memory = c.memory.copy dest src n.toNat) : CopiedTo c c' dest src n := by
  rw [CopiedTo, h]
  exact ⟨fun _ hi => Memory.copy_of_lt hi, fun _ ha => Memory.copy_of_not_inSpan ha⟩

/-- For every length and every alignment, `memcpy` of spans that do not meet is the copy of
their bytes, and `memset` stores the low byte of its value. -/
theorem memcpy_memset (c : StringCpu) (dest src n s v k : Word) :
    ((∀ i < n.toNat, ¬ InSpan (src + BitVec.ofNat 32 i) dest n.toNat) →
        CopiedTo c (memcpy c dest src n) dest src n)
      ∧ FilledWith c (memset c s v k) s (v.setWidth 8) k := by
  constructor
  · intro hapart
    exact copiedTo_of_memory (memory_memcpy c (readsAhead_of_apart hapart))
  · rw [FilledWith, memory_memset]
    exact ⟨fun _ hi => if_pos (inSpan_add_ofNat hi), fun _ ha => if_neg ha⟩

/-- A processor whose memory holds the low byte of each address. -/
def sampleCpu : StringCpu where
  eax := 0
  ecx := 0
  edx := 0
  esi := 0
  edi := 0
  df := false
  memory a := a.setWidth 8

/-- Nine bytes from an odd address to another one. -/
theorem memcpy_memset_nine :
    CopiedTo sampleCpu (memcpy sampleCpu 0x1003 0x2001 9) 0x1003 0x2001 9
      ∧ FilledWith sampleCpu (memset sampleCpu 0x1003 0x1FF 9) 0x1003 0xFF 9 :=
  ⟨(memcpy_memset sampleCpu 0x1003 0x2001 9 0x1003 0x1FF 9).1 (by decide),
    (memcpy_memset sampleCpu 0x1003 0x2001 9 0x1003 0x1FF 9).2⟩

/-- `memmove` copies and leaves the direction flag clear exactly when the source does not lie
below the destination. -/
theorem memmove_clean_iff (c : StringCpu) {dest src n : Word}
    (hsrc : src.toNat + n.toNat ≤ 2 ^ 32) (hdest : dest.toNat + n.toNat ≤ 2 ^ 32) :
    CopiedTo c (memmove c dest src n) dest src n ∧ (memmove c dest src n).df = false
      ↔ dest ≤ src := by
  obtain ⟨hmem, hdf⟩ := memmove_spec c hsrc hdest
  exact ⟨fun h => hdf.mp h.2, fun h => ⟨copiedTo_of_memory hmem, hdf.mpr h⟩⟩

/-- Sixteen bytes moved down by one, as a scroll moves its rows. -/
theorem memmove_clean_iff_sixteen :
    CopiedTo sampleCpu (memmove sampleCpu 0x1000 0x1001 16) 0x1000 0x1001 16
        ∧ (memmove sampleCpu 0x1000 0x1001 16).df = false ↔ (0x1000 : Word) ≤ 0x1001 :=
  memmove_clean_iff sampleCpu (by decide) (by decide)

/-- A move up by one byte leaves the direction flag set. -/
theorem memmove_flag_left :
    ¬ ∀ (c : StringCpu) (dest src n : Word), src.toNat + n.toNat ≤ 2 ^ 32 →
      dest.toNat + n.toNat ≤ 2 ^ 32 →
        CopiedTo c (memmove c dest src n) dest src n ∧ (memmove c dest src n).df = false := by
  intro h
  have hdf := (h sampleCpu 0x1001 0x1000 16 (by decide) (by decide)).2
  exact absurd ((memmove_spec sampleCpu (by decide) (by decide)).2.mp hdf) (by decide)

/-! ## The screen's copies -/

/-- The bytes of a machine by address, as the screen model has them. -/
def byAddress (m : Memory) : ℤ → Byte := fun a => m (BitVec.ofInt 32 a)

/-- The instructions of `memmove` do what the screen model takes it to do. -/
theorem byAddress_memmove (c : StringCpu) {dest src n : Word}
    (hsrc : src.toNat + n.toNat ≤ 2 ^ 32) (hdest : dest.toNat + n.toNat ≤ 2 ^ 32) (b : Word) :
    byAddress (memmove c dest src n).memory b.toNat
      = HieUnix.memmove (byAddress c.memory) dest.toNat src.toNat n.toNat b.toNat := by
  have hself : ∀ a : Word, BitVec.ofInt 32 a.toNat = a := fun a => by
    rw [BitVec.ofInt_natCast, BitVec.ofNat_toNat, BitVec.setWidth_eq]
  rw [byAddress, (memmove_spec c hsrc hdest).1, Memory.copy, HieUnix.memmove, hself]
  have hb := b.isLt
  -- a span that does not wrap is an interval of integers
  by_cases hin : InSpan b dest n.toNat
  · have hsub : (dest.toNat : ℤ) ≤ b.toNat ∧ (b.toNat : ℤ) < dest.toNat + n.toNat := by
      rw [InSpan, BitVec.toNat_sub] at hin
      omega
    have hoff : (b.toNat : ℤ) - dest.toNat = (b - dest).toNat := by
      rw [BitVec.toNat_sub]
      omega
    rw [if_pos hin, if_pos hsub, byAddress, hoff, BitVec.ofInt_add, hself, hself]
  · have hsub : ¬ ((dest.toNat : ℤ) ≤ b.toNat ∧ (b.toNat : ℤ) < dest.toNat + n.toNat) := by
      rw [InSpan, BitVec.toNat_sub] at hin
      omega
    rw [if_neg hin, if_neg hsub, byAddress, hself]

end StringCopies

end HieUnix
