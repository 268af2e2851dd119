import HieUnix.Lib.Memory

/-!
# Paging with two levels of tables

The memory management unit of a 32-bit processor with page size extensions: a directory of 1024
words, each for 4 MB, whose entry is a large page or leads to a table of 1024 words, each for a
page of 4 KB. The tables are words of the physical memory. Translations may be kept in a buffer
(the TLB) at any time and are only dropped when the directory is loaded again, and the processor
sets the accessed and the dirty bit of an entry at any time.

The rules for programs that manage tables: a translation depends on the entries it goes through
without those two bits (`walk_eq_of_settled`), and a unit whose buffer is coherent translates as its
tables say (`Mmu.lookup_eq_walk`).
-/

namespace Paging

/-- What a page is mapped to. -/
structure Mapping where
  frame : ℕ
  user : Bool
  write : Bool
deriving DecidableEq, Repr

/-! ## Entries -/

/-- Bit 0 of an entry. -/
def present (e : Word) : Bool := e.getLsbD 0

/-- Bit 1: user mode may write. -/
def writable (e : Word) : Bool := e.getLsbD 1

/-- Bit 2: user mode may access the page. -/
def forUser (e : Word) : Bool := e.getLsbD 2

/-- Bit 7 of an entry of the directory: the entry is a page of 4 MB. -/
def large (e : Word) : Bool := e.getLsbD 7

/-- An entry without the accessed and the dirty bit, bits 5 and 6. -/
def settled (e : Word) : Word := e &&& 0xFFFFFF9F

/-- The accessed and the dirty bit, as many of them as are in `bits`. -/
def marks (bits : Word) : Word := bits &&& 0x60

theorem getLsbD_settled {i : ℕ} (h : (0xFFFFFF9F : Word).getLsbD i = true) (e : Word) :
    (settled e).getLsbD i = e.getLsbD i := by
  rw [settled, BitVec.getLsbD_and, h, Bool.and_true]

@[simp] theorem present_settled (e : Word) : present (settled e) = present e :=
  getLsbD_settled (by decide) e

@[simp] theorem writable_settled (e : Word) : writable (settled e) = writable e :=
  getLsbD_settled (by decide) e

@[simp] theorem forUser_settled (e : Word) : forUser (settled e) = forUser e :=
  getLsbD_settled (by decide) e

@[simp] theorem large_settled (e : Word) : large (settled e) = large e :=
  getLsbD_settled (by decide) e

/-- The upper bits of an entry are not among the two. -/
theorem settled_div (e : Word) {n : ℕ} (hn : 7 ≤ n) :
    (settled e).toNat / 2 ^ n = e.toNat / 2 ^ n := by
  rw [← Nat.shiftRight_eq_div_pow, ← Nat.shiftRight_eq_div_pow, ← BitVec.toNat_ushiftRight,
    ← BitVec.toNat_ushiftRight]
  congr 1
  ext i hi
  rw [BitVec.getElem_ushiftRight, BitVec.getElem_ushiftRight]
  by_cases hlt : n + i < 32
  · exact getLsbD_settled ((by decide : ∀ j < 32, 7 ≤ j → (0xFFFFFF9F : Word).getLsbD j = true)
      (n + i) hlt (by omega)) e
  · rw [BitVec.getLsbD_of_ge _ _ (by omega), BitVec.getLsbD_of_ge _ _ (by omega)]

theorem settled_and_frame (e : Word) : settled e &&& 0xFFFFF000 = e &&& 0xFFFFF000 := by
  rw [settled, BitVec.and_assoc]
  rfl

/-- Marking an entry keeps it, but for the two bits. -/
@[simp] theorem settled_or_marks (e bits : Word) : settled (e ||| marks bits) = settled e := by
  have hzero : marks bits &&& 0xFFFFFF9F = 0 := by
    rw [marks, BitVec.and_assoc]
    exact BitVec.and_zero
  rw [settled, BitVec.and_or_distrib_right, hzero]
  exact BitVec.or_zero

/-! ## Entries made from an address and flags -/

variable {base flags : Word}

/-- The lower twelve bits of the address of a page are zero. -/
theorem getLsbD_of_page {i : ℕ} (hbase : base &&& 0xFFFFF000 = base) (hi : i < 12) :
    base.getLsbD i = false := by
  have hmask : (0xFFFFF000 : Word).getLsbD i = false :=
    (by decide : ∀ j < 12, (0xFFFFF000 : Word).getLsbD j = false) i hi
  rw [← hbase, BitVec.getLsbD_and, hmask, Bool.and_false]

/-- A bit below twelve is that of the flags. -/
theorem getLsbD_or_flags {i : ℕ} (hbase : base &&& 0xFFFFF000 = base) (hi : i < 12) :
    (base ||| flags).getLsbD i = flags.getLsbD i := by
  rw [BitVec.getLsbD_or, getLsbD_of_page hbase hi, Bool.false_or]

/-- The frame is that of the address. -/
theorem frame_or_flags (hflags : flags.toNat < 2 ^ 12) :
    (base ||| flags).toNat / 2 ^ 12 = base.toNat / 2 ^ 12 := by
  rw [BitVec.toNat_or, ← Nat.shiftRight_eq_div_pow, Nat.shiftRight_or_distrib,
    Nat.shiftRight_eq_div_pow flags.toNat, Nat.div_eq_of_lt hflags, Nat.or_zero,
    Nat.shiftRight_eq_div_pow]

theorem tableOf_or_flags (hbase : base &&& 0xFFFFF000 = base)
    (hflags : flags &&& 0xFFFFF000 = 0) : (base ||| flags) &&& 0xFFFFF000 = base := by
  rw [BitVec.and_or_distrib_right, hbase, hflags]
  exact BitVec.or_zero

/-- Neither of the two bits is in the address of a page. -/
theorem settled_or_flags (hbase : base &&& 0xFFFFF000 = base)
    (hflags : flags &&& 0xFFFFFF9F = flags) : settled (base ||| flags) = base ||| flags := by
  have hsettled : base &&& 0xFFFFFF9F = base := by
    rw [← hbase, BitVec.and_assoc]
    rfl
  rw [settled, BitVec.and_or_distrib_right, hsettled, hflags]

/-- The address of the page `n`. -/
theorem page_and_mask (n : ℕ) :
    BitVec.ofNat 32 (4096 * n) &&& 0xFFFFF000 = BitVec.ofNat 32 (4096 * n) := by
  have hshift : BitVec.ofNat 32 (4096 * n) = BitVec.ofNat 32 n <<< 12 := by
    apply BitVec.eq_of_toNat_eq
    rw [BitVec.toNat_shiftLeft, BitVec.toNat_ofNat, BitVec.toNat_ofNat, Nat.shiftLeft_eq]
    omega
  rw [hshift]
  ext i hi
  rw [BitVec.getElem_and, BitVec.getElem_shiftLeft]
  by_cases h12 : i < 12
  · simp [h12]
  · have hmask : (0xFFFFF000 : Word)[i] = true :=
      (by decide : ∀ (j : ℕ) (h : j < 32), 12 ≤ j → (0xFFFFF000 : Word)[j] = true) i hi (by omega)
    rw [hmask, Bool.and_true]

/-! ## Tables -/

/-- The address of the entry `i` of a table. -/
def entryAddr (table : Word) (i : ℕ) : Word := table + BitVec.ofNat 32 (4 * i)

/-- The entry `i` of a table. -/
def entry (m : Memory) (table : Word) (i : ℕ) : Word := m.load32 (entryAddr table i)

/-- Two tables have no byte in common. -/
def Apart (t t' : Word) : Prop := 4096 ≤ (t' - t).toNat ∧ 4096 ≤ (t - t').toNat

theorem Apart.symm {t t' : Word} (h : Apart t t') : Apart t' t := ⟨h.2, h.1⟩

variable {m m' : Memory} {t t' v : Word} {i j p : ℕ}

theorem toNat_offset (hi : i < 1024) : (BitVec.ofNat 32 (4 * i)).toNat = 4 * i := by
  rw [BitVec.toNat_ofNat, Nat.mod_eq_of_lt (by omega)]

@[simp] theorem entry_store32_self (m : Memory) (t v : Word) (i : ℕ) :
    entry (m.store32 (entryAddr t i) v) t i = v :=
  Memory.load32_store32_self _ _ _

theorem entry_store32_of_ne (m : Memory) (t v : Word) (hi : i < 1024) (hj : j < 1024)
    (hne : j ≠ i) : entry (m.store32 (entryAddr t i) v) t j = entry m t j := by
  have hi' := toNat_offset hi
  have hj' := toNat_offset hj
  apply Memory.load32_store32_of_disjoint
  all_goals
    unfold entryAddr
    generalize BitVec.ofNat 32 (4 * i) = x at hi' ⊢
    generalize BitVec.ofNat 32 (4 * j) = y at hj' ⊢
    bv_omega

theorem entry_store32_of_apart (m : Memory) (v : Word) (h : Apart t t') (hi : i < 1024)
    (hj : j < 1024) : entry (m.store32 (entryAddr t i) v) t' j = entry m t' j := by
  have hi' := toNat_offset hi
  have hj' := toNat_offset hj
  obtain ⟨h1, h2⟩ := h
  apply Memory.load32_store32_of_disjoint
  all_goals
    unfold entryAddr
    generalize BitVec.ofNat 32 (4 * i) = x at hi' ⊢
    generalize BitVec.ofNat 32 (4 * j) = y at hj' ⊢
    bv_omega

/-- The entries of a table are its bytes. -/
theorem entry_congr (hj : j < 1024) (h : ∀ b, InSpan b t 4096 → m' b = m b) :
    entry m' t j = entry m t j := by
  have hj' := toNat_offset hj
  refine Memory.load32_congr fun k hk => h _ ?_
  have hk' : (BitVec.ofNat 32 k).toNat = k := by
    rw [BitVec.toNat_ofNat, Nat.mod_eq_of_lt (by omega)]
  unfold InSpan entryAddr
  generalize BitVec.ofNat 32 (4 * j) = x at hj' ⊢
  generalize BitVec.ofNat 32 k = y at hk' ⊢
  bv_omega

/-- A word stored in a table changes no byte outside it. -/
theorem store32_entryAddr_of_not_inSpan {b : Word} (m : Memory) (t v : Word) (hi : i < 1024)
    (hb : ¬ InSpan b t 4096) : m.store32 (entryAddr t i) v b = m b := by
  have hi' := toNat_offset hi
  refine Memory.store32_of_not_inSpan m v fun hin => hb ?_
  unfold InSpan entryAddr at *
  generalize BitVec.ofNat 32 (4 * i) = x at hi' hin
  bv_omega

/-! ## Walks -/

/-- The mapping of a page of a large entry. -/
def largeMapping (pde : Word) (p : ℕ) : Mapping :=
  ⟨pde.toNat / 2 ^ 22 * 1024 + p % 1024, forUser pde, writable pde⟩

/-- The mapping of an entry of a table: both levels have to allow an access. -/
def smallMapping (pde pte : Word) : Mapping :=
  ⟨pte.toNat / 2 ^ 12, forUser pde && forUser pte, writable pde && writable pte⟩

/-- The table an entry of the directory leads to. -/
def tableOf (pde : Word) : Word := pde &&& 0xFFFFF000

/-- The translation of the page `p` by the tables of `dir`. -/
def walk (pse : Bool) (m : Memory) (dir : Word) (p : ℕ) : Option Mapping :=
  let pde := entry m dir (p / 1024)
  if present pde then
    if pse && large pde then some (largeMapping pde p)
    else
      let pte := entry m (tableOf pde) (p % 1024)
      if present pte then some (smallMapping pde pte) else none
  else none

theorem largeMapping_settled (e : Word) (p : ℕ) : largeMapping (settled e) p = largeMapping e p := by
  simp only [largeMapping, forUser_settled, writable_settled, settled_div e (by decide : 7 ≤ 22)]

theorem smallMapping_settled (e e' : Word) :
    smallMapping (settled e) (settled e') = smallMapping e e' := by
  simp only [smallMapping, forUser_settled, writable_settled, settled_div e' (by decide : 7 ≤ 12)]

theorem tableOf_settled (e : Word) : tableOf (settled e) = tableOf e := settled_and_frame e

/-- A translation depends on the entries it goes through without the two bits. -/
theorem walk_eq_of_settled {pse : Bool} {dir pde : Word}
    (hpde : settled (entry m dir (p / 1024)) = pde) :
    walk pse m dir p =
      if present pde then
        if pse && large pde then some (largeMapping pde p)
        else
          let pte := settled (entry m (tableOf pde) (p % 1024))
          if present pte then some (smallMapping pde pte) else none
      else none := by
  subst hpde
  simp only [walk, present_settled, large_settled, largeMapping_settled, tableOf_settled]
  split_ifs
  · rfl
  · rw [← smallMapping_settled]
  · rfl
  · rfl

/-! ## The unit -/

/-- The physical memory, the control registers and the buffer of translations. -/
structure Mmu where
  mem : Memory
  cr0 : Word
  cr3 : Word
  cr4 : Word
  tlb : ℕ → Option Mapping

/-- The kind of an access: by user mode or by the kernel, and whether it writes. -/
structure Access where
  user : Bool
  write : Bool
deriving DecidableEq, Repr

/-- The kernel's read. -/
def Access.kernelRead : Access := ⟨false, false⟩
/-- The kernel's write. -/
def Access.kernelWrite : Access := ⟨false, true⟩

/-- Whether a mapping allows an access. With write protection off (bit 16 of `cr0`) the kernel may
write to any page. -/
def Mapping.allows (wp : Bool) (a : Access) (x : Mapping) : Bool :=
  (!a.user || x.user) && (!a.write || x.write || (!a.user && !wp))

namespace Mmu

/-- Bit 31 of `cr0`: paging is on. -/
def enabled (s : Mmu) : Bool := s.cr0.getLsbD 31

/-- Bit 16 of `cr0`. -/
def writeProtect (s : Mmu) : Bool := s.cr0.getLsbD 16

/-- Bit 4 of `cr4`: pages of 4 MB. -/
def pse (s : Mmu) : Bool := s.cr4.getLsbD 4

/-- The translation of a page by the tables. -/
def walk (s : Mmu) (p : ℕ) : Option Mapping := Paging.walk s.pse s.mem (tableOf s.cr3) p

/-- The translation of a page: from the buffer when it is there. -/
def lookup (s : Mmu) (p : ℕ) : Option Mapping := (s.tlb p).or (s.walk p)

/-- The physical address of an access, `none` for a page fault. -/
def translate (s : Mmu) (a : Access) (va : Word) : Option Word :=
  if s.enabled then
    ((s.lookup (va.toNat / 4096)).filter (Mapping.allows s.writeProtect a)).map fun x =>
      BitVec.ofNat 32 (x.frame * 4096 + va.toNat % 4096)
  else some va

/-- The word at an address that is a multiple of four. -/
def read32 (s : Mmu) (va : Word) : Option Word :=
  (s.translate .kernelRead va).map s.mem.load32

/-- A word stored by the kernel at an address that is a multiple of four. -/
def write32 (s : Mmu) (va v : Word) : Option Mmu :=
  (s.translate .kernelWrite va).map fun pa => { s with mem := s.mem.store32 pa v }

/-- A byte stored. -/
def write8 (s : Mmu) (user : Bool) (va : Word) (v : Byte) : Option Mmu :=
  (s.translate ⟨user, true⟩ va).map fun pa => { s with mem := s.mem.store8 pa v }

/-- `mov %cr3`: the buffer is emptied. -/
def movCr3 (s : Mmu) (v : Word) : Mmu := { s with cr3 := v, tlb := fun _ => none }

/-- `mov %cr4`. -/
def movCr4 (s : Mmu) (v : Word) : Mmu := { s with cr4 := v }

/-- `mov %cr0`. -/
def movCr0 (s : Mmu) (v : Word) : Mmu := { s with cr0 := v }

/-- The processor keeps the translation of a page. -/
def fill (s : Mmu) (p : ℕ) : Mmu := { s with tlb := Function.update s.tlb p (s.walk p) }

/-- The processor sets bits in the entry of the directory for a page. -/
def markDirectory (s : Mmu) (p : ℕ) (bits : Word) : Mmu :=
  let e := entry s.mem (tableOf s.cr3) (p / 1024)
  { s with mem := s.mem.store32 (entryAddr (tableOf s.cr3) (p / 1024)) (e ||| marks bits) }

/-- The processor sets bits in the entry for a page of the table it goes through. -/
def markTable (s : Mmu) (p : ℕ) (bits : Word) : Mmu :=
  let t := tableOf (entry s.mem (tableOf s.cr3) (p / 1024))
  { s with mem := s.mem.store32 (entryAddr t (p % 1024)) (entry s.mem t (p % 1024) ||| marks bits) }

/-- Whether the translation of a page goes through a table. -/
def usesTable (s : Mmu) (p : ℕ) : Bool :=
  let e := entry s.mem (tableOf s.cr3) (p / 1024)
  present e && !(s.pse && large e)

/-- What the buffer holds is what the tables say. -/
def Coherent (s : Mmu) : Prop := ∀ p < 2 ^ 20, ∀ x, s.tlb p = some x → s.walk p = some x

variable {s s' : Mmu}

/-- **A coherent buffer is not seen.** -/
theorem lookup_eq_walk (h : s.Coherent) (hp : p < 2 ^ 20) : s.lookup p = s.walk p := by
  cases htlb : s.tlb p with
  | none => rw [lookup, htlb, Option.none_or]
  | some x => rw [lookup, htlb, Option.some_or, h p hp x htlb]

theorem coherent_of_empty (h : ∀ p, s.tlb p = none) : s.Coherent := by
  intro p _ x hx
  rw [h p] at hx
  cases hx

/-- The buffer stays coherent when no translation changes. -/
theorem Coherent.congr (h : s.Coherent) (htlb : s'.tlb = s.tlb)
    (hwalk : ∀ p < 2 ^ 20, s'.walk p = s.walk p) : s'.Coherent := by
  intro p hp x hx
  rw [hwalk p hp]
  exact h p hp x (htlb ▸ hx)

theorem Coherent.fill (h : s.Coherent) (p : ℕ) : (s.fill p).Coherent := by
  intro q hq x hx
  show s.walk q = some x
  change Function.update s.tlb p (s.walk p) q = some x at hx
  rcases eq_or_ne q p with rfl | hne
  · rwa [Function.update_self] at hx
  · rw [Function.update_of_ne hne] at hx
    exact h q hq x hx

theorem page_lt (va : Word) : va.toNat / 4096 < 2 ^ 20 := by
  have hlt := va.isLt
  omega

/-- The translation of an access where the buffer is coherent. -/
theorem translate_eq (h : s.Coherent) (hpg : s.enabled = true) (a : Access) (va : Word) :
    s.translate a va
      = ((s.walk (va.toNat / 4096)).filter (Mapping.allows s.writeProtect a)).map fun x =>
        BitVec.ofNat 32 (x.frame * 4096 + va.toNat % 4096) := by
  rw [translate, if_pos hpg, lookup_eq_walk h (page_lt va)]

end Mmu

end Paging
