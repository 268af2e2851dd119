import HieUnix.Lib.Interrupts
import HieUnix.VirtualMemory

/-!
# The descriptor tables

The segments of `x86_desc.S`, the descriptors of the TSS and the LDT that `entry` of `kernel.c`
builds, and the gates of `idt_init`, as words of the kernel's memory. User mode cannot store to
them, so that in every run of the paging unit the processor finds what boot left there
(`raise_of_run`): a program enters the kernel through four handlers only, on the stack of
`tss.esp0`, and an interrupt enters the handler of its line.
-/

namespace HieUnix

open X86 Page

/-! ## Symbols -/

/-- The handlers of `x86_idt.S` and `syscall_entry.S`. -/
inductive Entry
  | divideError
  | debug
  | nmi
  | int3
  | overflow
  | bounds
  | invalidOp
  | deviceNotAvailable
  | coprocessorSegmentOverrun
  | invalidTSS
  | segmentNotPresent
  | stackSegment
  | generalProtection
  | pageFault
  | coprocessorError
  | simdCoprocessorError
  | alignmentCheck
  | machineCheck
  | handleSyscall
  | handlePit
  | handleKeyboard
  | handleRtc
  | handleMouse
deriving DecidableEq, Repr

/-- The two spans have no byte in common. -/
def SpansApart (p q : Word × ℕ) : Prop := ∀ b, InSpan b p.1 p.2 → ¬ InSpan b q.1 q.2

/-- Where the linker puts the tables and the handlers. -/
structure Symbols where
  gdt : Word
  idt : Word
  tss : Word
  ldt : Word
  entry : Entry → Word
  apart : [(gdt, 64), (idt, 2048), (tss, 104)].Pairwise SpansApart

/-! ## Constants -/

/-- `KERNEL_CS`. -/
abbrev kernelCs : Selector := 0x0010
/-- `KERNEL_DS`. -/
abbrev kernelDs : Selector := 0x0018
/-- `USER_CS`. -/
abbrev userCs : Selector := 0x0023
/-- `USER_DS`. -/
abbrev userDs : Selector := 0x002B
/-- `KERNEL_TSS`. -/
abbrev kernelTss : Selector := 0x0030
/-- `KERNEL_LDT`. -/
abbrev kernelLdt : Selector := 0x0038
/-- `TRAP_GATE`. -/
abbrev trapGate : Word := 0x8F00
/-- `INTR_GATE`. -/
abbrev intrGate : Word := 0x8E00
/-- `SYSTEM_GATE`. -/
abbrev systemGate : Word := 0xEF00
/-- `SYSTEM_INTR_GATE`. -/
abbrev systemIntrGate : Word := 0xEE00
/-- `TASK_GATE`. -/
abbrev taskGate : Word := 0x8500
/-- `MSB_16`. -/
abbrev msb16 : Word := 0xFFFF0000
/-- `LSB_16`. -/
abbrev lsb16 : Word := 0xFFFF
/-- `TSS_SIZE`. -/
abbrev tssSize : Word := 104

/-! ## The gates -/

/-- The two words that the functions `set_*_gate` copy into the table. -/
def setGate (type : Word) (S : Symbols) (gate : BitVec 8) (addr : Word) (m : Memory) : Memory :=
  let hiword := type ||| addr &&& msb16
  let m := m.store32 (S.idt + 8 * gate.setWidth 32 + 4) hiword
  let lowword := kernelCs.setWidth 32 <<< 16 ||| addr &&& lsb16
  m.store32 (S.idt + 8 * gate.setWidth 32) lowword

/-- `set_trap_gate`. -/
def setTrapGate : Symbols → BitVec 8 → Word → Memory → Memory := setGate trapGate
/-- `set_intr_gate`. -/
def setIntrGate : Symbols → BitVec 8 → Word → Memory → Memory := setGate intrGate
/-- `set_system_intr_gate`. -/
def setSystemIntrGate : Symbols → BitVec 8 → Word → Memory → Memory := setGate systemIntrGate
/-- `set_system_gate`. -/
def setSystemGate : Symbols → BitVec 8 → Word → Memory → Memory := setGate systemGate
/-- `set_task_gate`. -/
def setTaskGate : Symbols → BitVec 8 → Word → Memory → Memory := setGate taskGate

/-- `idt_init`. -/
def idtInit (S : Symbols) (m : Memory) : Memory :=
  m |> setTrapGate S 0 (S.entry .divideError)
    |> setTrapGate S 1 (S.entry .debug)
    |> setIntrGate S 2 (S.entry .nmi)
    |> setSystemIntrGate S 3 (S.entry .int3)
    |> setSystemGate S 4 (S.entry .overflow)
    |> setSystemGate S 5 (S.entry .bounds)
    |> setTrapGate S 6 (S.entry .invalidOp)
    |> setTrapGate S 7 (S.entry .deviceNotAvailable)
    |> setTaskGate S 8 (S.entry .coprocessorSegmentOverrun)
    |> setTrapGate S 10 (S.entry .invalidTSS)
    |> setTrapGate S 11 (S.entry .segmentNotPresent)
    |> setTrapGate S 12 (S.entry .stackSegment)
    |> setTrapGate S 13 (S.entry .generalProtection)
    |> setTrapGate S 14 (S.entry .pageFault)
    |> setTrapGate S 16 (S.entry .coprocessorError)
    |> setTrapGate S 19 (S.entry .simdCoprocessorError)
    |> setTrapGate S 17 (S.entry .alignmentCheck)
    |> setTrapGate S 18 (S.entry .machineCheck)
    |> setSystemGate S 128 (S.entry .handleSyscall)
    |> setIntrGate S 32 (S.entry .handlePit)
    |> setIntrGate S 33 (S.entry .handleKeyboard)
    |> setIntrGate S 40 (S.entry .handleRtc)
    |> setIntrGate S 44 (S.entry .handleMouse)

/-! ## The descriptors -/

/-- `seg_desc_t`, field by field. -/
structure SegDesc where
  segLim15_00 : BitVec 16
  base15_00 : BitVec 16
  base23_16 : BitVec 8
  type : BitVec 4
  sys : BitVec 1
  dpl : BitVec 2
  present : BitVec 1
  segLim19_16 : BitVec 4
  avail : BitVec 1
  reserved : BitVec 1
  opsize : BitVec 1
  granularity : BitVec 1
  base31_24 : BitVec 8

namespace SegDesc

/-- The first word of the packed structure. -/
def low (d : SegDesc) : Word := d.base15_00 ++ d.segLim15_00

/-- The second word. -/
def high (d : SegDesc) : Word :=
  d.base31_24 ++ (d.granularity ++ (d.opsize ++ (d.reserved ++ (d.avail ++ (d.segLim19_16 ++
    (d.present ++ (d.dpl ++ (d.sys ++ (d.type ++ d.base23_16)))))))))

/-- `SET_LDT_PARAMS` and `SET_TSS_PARAMS`. -/
def setParams (d : SegDesc) (addr lim : Word) : SegDesc :=
  { d with
    base31_24 := ((addr &&& 0xFF000000) >>> 24).setWidth 8
    base23_16 := ((addr &&& 0x00FF0000) >>> 16).setWidth 8
    base15_00 := (addr &&& 0x0000FFFF).setWidth 16
    segLim19_16 := ((lim &&& 0x000F0000) >>> 16).setWidth 4
    segLim15_00 := (lim &&& 0x0000FFFF).setWidth 16 }

end SegDesc

/-- `the_ldt_desc` of `entry`. -/
def theLdtDesc (S : Symbols) : SegDesc :=
  SegDesc.setParams
    { segLim15_00 := 0, base15_00 := 0, base23_16 := 0, segLim19_16 := 0, base31_24 := 0
      granularity := 0, opsize := 1, reserved := 0, avail := 0, present := 1, dpl := 0, sys := 0
      type := 0x2 } S.ldt 31

/-- `the_tss_desc` of `entry`. -/
def theTssDesc (S : Symbols) : SegDesc :=
  SegDesc.setParams
    { base15_00 := 0, base23_16 := 0, base31_24 := 0
      granularity := 0, opsize := 0, reserved := 0, avail := 0
      segLim19_16 := (tssSize &&& 0x000F0000).setWidth 4
      present := 1, dpl := 0, sys := 0, type := 0x9
      segLim15_00 := (tssSize &&& 0x0000FFFF).setWidth 16 } S.tss 103

/-- A descriptor stored in the table. -/
def storeDesc (S : Symbols) (s : Selector) (d : SegDesc) (m : Memory) : Memory :=
  (m.store32 (S.gdt + descriptorOffset s) d.low).store32 (S.gdt + descriptorOffset s + 4) d.high

/-- A half word stored. -/
def store16 (m : Memory) (a : Word) (v : BitVec 16) : Memory :=
  (m.store8 a (v.extractLsb' 0 8)).store8 (a + 1) (v.extractLsb' 8 8)

/-- The descriptors of the LDT and the TSS, and the TSS. -/
def initSegments (S : Symbols) (m : Memory) : Memory :=
  let m := storeDesc S kernelLdt (theLdtDesc S) m
  let m := storeDesc S kernelTss (theTssDesc S) m
  let m := store16 m (S.tss + 96) kernelLdt
  let m := store16 m (S.tss + 8) kernelDs
  m.store32 (S.tss + 4) 0x800000

/-- The tables as `entry` leaves them. -/
def initTables (S : Symbols) (m : Memory) : Memory := idtInit S (initSegments S m)

/-- The `.quad`s from `gdt` on. -/
def gdtQuads : List (BitVec 64) :=
  [0, 0, 0x00CF9A000000FFFF, 0x00CF92000000FFFF, 0x00CFFA000000FFFF, 0x00CFF2000000FFFF, 0, 0]

/-- The tables of `x86_desc.S` as the boot loader puts them into memory. -/
structure Loaded (S : Symbols) (m : Memory) : Prop where
  gdt : ∀ i q, gdtQuads[i]? = some q →
    m.load32 (S.gdt + 8 * BitVec.ofNat 32 i) = q.extractLsb' 0 32 ∧
    m.load32 (S.gdt + 8 * BitVec.ofNat 32 i + 4) = q.extractLsb' 32 32
  idt : ∀ v : BitVec 8, m.load32 (S.idt + 8 * v.setWidth 32 + 4) = 0

/-- `lgdt` and `lidt` of `boot.S`, and `ltr(KERNEL_TSS)` of `entry` with the memory it reads. -/
def Symbols.tables (S : Symbols) (m : Memory) : TableRegisters where
  gdt := S.gdt
  gdtLimit := 63
  idt := S.idt
  idtLimit := 2047
  tss := (Descriptor.ofWords (m.load32 (S.gdt + descriptorOffset kernelTss))
    (m.load32 (S.gdt + descriptorOffset kernelTss + 4))).base

variable {S : Symbols} {m m' : Memory} {v w : BitVec 8} {b : Word}

/-! ## Gates in memory -/

/-- The gate that `setGate` writes. -/
def gateOf (type addr : Word) : Gate where
  offset := addr
  selector := kernelCs
  type := type.extractLsb' 8 4
  system := !type.getLsbD 12
  dpl := type.extractLsb' 13 2
  present := type.getLsbD 15

/-- The words of a gate have the address in their outer halves. -/
theorem ofWords_gate {type : Word} (htype : type &&& msb16 = 0) (addr : Word) :
    Gate.ofWords (kernelCs.setWidth 32 <<< 16 ||| addr &&& lsb16) (type ||| addr &&& msb16)
      = gateOf type addr := by
  have hlow : ∀ i < 16, (lsb16 : Word).getLsbD i = true ∧ (msb16 : Word).getLsbD i = false := by
    decide
  have hhigh : ∀ i < 16, (msb16 : Word).getLsbD (16 + i) = true ∧
      (lsb16 : Word).getLsbD (16 + i) = false := by
    decide
  have hcs : ∀ i < 16, (kernelCs.setWidth 32 <<< 16 : Word).getLsbD i = false ∧
      (kernelCs.setWidth 32 <<< 16 : Word).getLsbD (16 + i) = kernelCs.getLsbD i := by
    decide
  have hzero : ∀ i < 16, type.getLsbD (16 + i) = false := by
    intro i hi
    have hbit := congrArg (fun x : Word => x.getLsbD (16 + i)) htype
    simp only [BitVec.getLsbD_and, (hhigh i hi).1, Bool.and_true] at hbit
    exact hbit.trans BitVec.getLsbD_zero
  have htop : ∀ i < 16, (type ||| addr &&& msb16).getLsbD (16 + i) = addr.getLsbD (16 + i) := by
    intro i hi
    rw [BitVec.getLsbD_or, BitVec.getLsbD_and, hzero i hi, (hhigh i hi).1, Bool.false_or,
      Bool.and_true]
  have hbottom : ∀ i < 16, (type ||| addr &&& msb16).getLsbD i = type.getLsbD i := by
    intro i hi
    rw [BitVec.getLsbD_or, BitVec.getLsbD_and, (hlow i hi).2, Bool.and_false, Bool.or_false]
  rw [gateOf, Gate.ofWords, Gate.mk.injEq]
  refine ⟨?_, ?_, ?_, ?_, ?_, ?_⟩
  · apply BitVec.eq_of_getLsbD_eq
    intro i hi
    rw [BitVec.getLsbD_append]
    split_ifs with h16
    · rw [BitVec.getLsbD_extractLsb', BitVec.getLsbD_or, BitVec.getLsbD_and, Nat.zero_add,
        (hlow i h16).1, (hcs i h16).1, Bool.false_or, Bool.and_true, decide_eq_true h16,
        Bool.true_and]
    · have hsub : i - 16 < 16 := by omega
      have hadd : 16 + (i - 16) = i := by omega
      rw [BitVec.getLsbD_extractLsb', htop _ hsub, hadd, decide_eq_true hsub, Bool.true_and]
  · apply BitVec.eq_of_getLsbD_eq
    intro i hi
    rw [BitVec.getLsbD_extractLsb', BitVec.getLsbD_or, BitVec.getLsbD_and, (hhigh i hi).2,
      (hcs i hi).2, Bool.and_false, Bool.or_false, decide_eq_true hi, Bool.true_and]
  · apply BitVec.eq_of_getLsbD_eq
    intro i hi
    rw [BitVec.getLsbD_extractLsb', BitVec.getLsbD_extractLsb', hbottom _ (by omega)]
  · rw [hbottom 12 (by decide)]
  · apply BitVec.eq_of_getLsbD_eq
    intro i hi
    rw [BitVec.getLsbD_extractLsb', BitVec.getLsbD_extractLsb', hbottom _ (by omega)]
  · exact hbottom 15 (by decide)

/-- The gate at a vector's place. -/
def Symbols.gateAt (S : Symbols) (m : Memory) (v : BitVec 8) : Gate :=
  Gate.ofWords (m.load32 (S.idt + 8 * v.setWidth 32)) (m.load32 (S.idt + 8 * v.setWidth 32 + 4))

theorem toNat_vector (v : BitVec 8) : (8 * v.setWidth 32 : Word).toNat = 8 * v.toNat := by
  have hv : v.toNat < 256 := v.isLt
  rw [BitVec.toNat_mul, BitVec.toNat_setWidth]
  show 8 * (v.toNat % 4294967296) % 4294967296 = 8 * v.toNat
  omega

theorem gateAt_setGate_self {type : Word} (htype : type &&& msb16 = 0) (addr : Word) :
    S.gateAt (setGate type S v addr m) v = gateOf type addr := by
  have hv := toNat_vector v
  rw [Symbols.gateAt, setGate]
  generalize 8 * v.setWidth 32 = x at hv
  rw [Memory.load32_store32_self,
    Memory.load32_store32_of_disjoint _ _ (by bv_omega) (by bv_omega),
    Memory.load32_store32_self]
  exact ofWords_gate htype addr

theorem gateAt_setGate_of_ne {type : Word} (hne : v ≠ w) (addr : Word) :
    S.gateAt (setGate type S w addr m) v = S.gateAt m v := by
  have hv := toNat_vector v
  have hw := toNat_vector w
  have hlt := v.isLt
  have hlt' := w.isLt
  have hne' : v.toNat ≠ w.toNat := fun h => hne (BitVec.eq_of_toNat_eq h)
  rw [Symbols.gateAt, Symbols.gateAt, setGate]
  generalize 8 * v.setWidth 32 = x at hv
  generalize 8 * w.setWidth 32 = y at hw
  rw [Memory.load32_store32_of_disjoint _ _ (by bv_omega) (by bv_omega),
    Memory.load32_store32_of_disjoint _ _ (by bv_omega) (by bv_omega),
    Memory.load32_store32_of_disjoint _ _ (by bv_omega) (by bv_omega),
    Memory.load32_store32_of_disjoint _ _ (by bv_omega) (by bv_omega)]

/-- A gate is stored inside the table. -/
theorem setGate_kept {type addr : Word} (hb : ¬ InSpan b S.idt 2048) :
    setGate type S v addr m b = m b := by
  have hv := toNat_vector v
  have hlt := v.isLt
  rw [setGate]
  generalize 8 * v.setWidth 32 = x at hv
  unfold InSpan at hb
  rw [Memory.store32_of_not_inSpan _ _ (by unfold InSpan; bv_omega),
    Memory.store32_of_not_inSpan _ _ (by unfold InSpan; bv_omega)]

/-- The gates of `idt_init`, in its order. -/
def idtGates : List (Word × BitVec 8 × Entry) :=
  [(trapGate, 0, .divideError), (trapGate, 1, .debug), (intrGate, 2, .nmi),
    (systemIntrGate, 3, .int3), (systemGate, 4, .overflow), (systemGate, 5, .bounds),
    (trapGate, 6, .invalidOp), (trapGate, 7, .deviceNotAvailable),
    (taskGate, 8, .coprocessorSegmentOverrun), (trapGate, 10, .invalidTSS),
    (trapGate, 11, .segmentNotPresent), (trapGate, 12, .stackSegment),
    (trapGate, 13, .generalProtection), (trapGate, 14, .pageFault),
    (trapGate, 16, .coprocessorError), (trapGate, 19, .simdCoprocessorError),
    (trapGate, 17, .alignmentCheck), (trapGate, 18, .machineCheck),
    (systemGate, 128, .handleSyscall), (intrGate, 32, .handlePit), (intrGate, 33, .handleKeyboard),
    (intrGate, 40, .handleRtc), (intrGate, 44, .handleMouse)]

/-- A gate of the list stored. -/
def storeGate (S : Symbols) (m : Memory) (g : Word × BitVec 8 × Entry) : Memory :=
  setGate g.1 S g.2.1 (S.entry g.2.2) m

theorem idtInit_eq_foldl (S : Symbols) (m : Memory) :
    idtInit S m = idtGates.foldl (storeGate S) m := rfl

theorem foldl_storeGate_kept (l : List (Word × BitVec 8 × Entry)) (hb : ¬ InSpan b S.idt 2048) :
    l.foldl (storeGate S) m b = m b := by
  induction l generalizing m with
  | nil => rfl
  | cons g l ih => rw [List.foldl_cons, ih, storeGate, setGate_kept hb]

/-- Of gates of different vectors each stays where it was stored. -/
theorem gateAt_foldl (l : List (Word × BitVec 8 × Entry)) (hl : (l.map fun g => g.2.1).Nodup)
    (htype : ∀ g ∈ l, g.1 &&& msb16 = 0) :
    (∀ g ∈ l, S.gateAt (l.foldl (storeGate S) m) g.2.1 = gateOf g.1 (S.entry g.2.2)) ∧
      ∀ v, (∀ g ∈ l, g.2.1 ≠ v) → S.gateAt (l.foldl (storeGate S) m) v = S.gateAt m v := by
  induction l generalizing m with
  | nil => exact ⟨fun g hg => absurd hg List.not_mem_nil, fun v _ => rfl⟩
  | cons g l ih =>
    rw [List.map_cons, List.nodup_cons] at hl
    have hnot : ∀ g' ∈ l, g'.2.1 ≠ g.2.1 := fun g' hg' heq =>
      hl.1 (heq ▸ List.mem_map_of_mem hg')
    obtain ⟨hin, hout⟩ := ih (m := storeGate S m g) hl.2 fun g' hg' =>
      htype g' (List.mem_cons_of_mem g hg')
    rw [List.foldl_cons]
    constructor
    · intro g' hg'
      rcases List.mem_cons.mp hg' with rfl | hg'
      · rw [hout _ hnot]
        exact gateAt_setGate_self (htype _ List.mem_cons_self) _
      · exact hin g' hg'
    · intro v hv
      rw [hout v fun g' hg' => hv g' (List.mem_cons_of_mem g hg')]
      exact gateAt_setGate_of_ne (hv g List.mem_cons_self).symm _

/-! ## Descriptors in memory -/

/-- A masked field shifted down is the field. -/
theorem field_eq {x mask : Word} {k n : ℕ} (hm : ∀ i < n, mask.getLsbD (k + i) = true) :
    ((x &&& mask) >>> k).setWidth n = x.extractLsb' k n := by
  apply BitVec.eq_of_getLsbD_eq
  intro i hi
  rw [BitVec.getLsbD_setWidth, BitVec.getLsbD_ushiftRight, BitVec.getLsbD_and, hm i hi,
    BitVec.getLsbD_extractLsb', Bool.and_true]

theorem SegDesc.base_ofWords (d : SegDesc) : (Descriptor.ofWords d.low d.high).base
    = d.base31_24 ++ d.base23_16 ++ d.base15_00 := by
  have htop : d.high.extractLsb' 24 8 = d.base31_24 := BitVec.extractLsb'_append_eq_left
  have hmid : d.high.extractLsb' 0 8 = d.base23_16 := by
    rw [SegDesc.high]
    simp (disch := decide) only [BitVec.extractLsb'_append_eq_of_add_le]
    exact BitVec.extractLsb'_eq_self
  have hlow : d.low.extractLsb' 16 16 = d.base15_00 := BitVec.extractLsb'_append_eq_left
  rw [Descriptor.ofWords, htop, hmid, hlow]

theorem base_setParams (d : SegDesc) (addr lim : Word) :
    (Descriptor.ofWords (d.setParams addr lim).low (d.setParams addr lim).high).base = addr := by
  have htop : (d.setParams addr lim).base31_24 = addr.extractLsb' 24 8 := field_eq (by decide)
  have hmid : (d.setParams addr lim).base23_16 = addr.extractLsb' 16 8 := field_eq (by decide)
  have hlow : (d.setParams addr lim).base15_00 = addr.extractLsb' 0 16 := by
    have hfield : ((addr &&& 0x0000FFFF) >>> 0).setWidth 16 = addr.extractLsb' 0 16 :=
      field_eq (by decide)
    rwa [BitVec.ushiftRight_zero] at hfield
  rw [SegDesc.base_ofWords, htop, hmid, hlow,
    BitVec.extractLsb'_append_extractLsb'_eq_extractLsb' (by decide),
    BitVec.extractLsb'_append_extractLsb'_eq_extractLsb' (by decide)]
  exact BitVec.extractLsb'_eq_self

theorem Symbols.apart_gdt_idt (S : Symbols) : SpansApart (S.gdt, 64) (S.idt, 2048) :=
  List.rel_of_pairwise_cons S.apart (by simp)

theorem Symbols.apart_gdt_tss (S : Symbols) : SpansApart (S.gdt, 64) (S.tss, 104) :=
  List.rel_of_pairwise_cons S.apart (by simp)

theorem Symbols.apart_idt_tss (S : Symbols) : SpansApart (S.idt, 2048) (S.tss, 104) :=
  List.rel_of_pairwise_cons (List.Pairwise.of_cons S.apart) (by simp)

/-- A span inside another one. -/
theorem inSpan_of_inSpan_add {a x : Word} {n len : ℕ} (h : x.toNat + n ≤ len)
    (hlen : len ≤ 2 ^ 31) (hb : InSpan b (a + x) n) : InSpan b a len := by
  unfold InSpan at hb ⊢
  bv_omega

theorem storeDesc_kept {s : Selector} (hs : (descriptorOffset s).toNat + 8 ≤ 64) (d : SegDesc)
    (hb : ¬ InSpan b S.gdt 64) : storeDesc S s d m b = m b := by
  rw [storeDesc]
  unfold InSpan at hb
  rw [Memory.store32_of_not_inSpan _ _ (by unfold InSpan; bv_omega),
    Memory.store32_of_not_inSpan _ _ (by unfold InSpan; bv_omega)]

theorem store16_kept {a : Word} (x : BitVec 16) (hb : ¬ InSpan b a 2) : store16 m a x b = m b := by
  unfold InSpan at hb
  rw [store16, Memory.store8_of_ne _ _ (by bv_omega), Memory.store8_of_ne _ _ (by bv_omega)]

/-! ## What boot leaves -/

/-- The code and data segments of `x86_desc.S`. -/
def flatSegments : List (Selector × BitVec 64) :=
  [(kernelCs, 0x00CF9A000000FFFF), (kernelDs, 0x00CF92000000FFFF), (userCs, 0x00CFFA000000FFFF),
    (userDs, 0x00CFF2000000FFFF)]

/-- The descriptor at a selector's place. -/
def Symbols.descAt (S : Symbols) (m : Memory) (s : Selector) : Descriptor :=
  Descriptor.ofWords (m.load32 (S.gdt + descriptorOffset s))
    (m.load32 (S.gdt + descriptorOffset s + 4))

/-- The tables as the processor finds them. -/
structure Tabled (S : Symbols) (m : Memory) : Prop where
  gates : ∀ g ∈ idtGates, S.gateAt m g.2.1 = gateOf g.1 (S.entry g.2.2)
  noGate : ∀ v, (∀ g ∈ idtGates, g.2.1 ≠ v) → ¬ (S.gateAt m v).IsGate
  segments : ∀ p ∈ flatSegments,
    S.descAt m p.1 = Descriptor.ofWords (p.2.extractLsb' 0 32) (p.2.extractLsb' 32 32)
  ss0 : (m.load32 (S.tss + 8)).setWidth 16 = kernelDs

/-- The bytes of the tables that the processor reads. -/
def Symbols.InTables (S : Symbols) (b : Word) : Prop :=
  InSpan b S.gdt 64 ∨ InSpan b S.idt 2048 ∨ InSpan b (S.tss + 8) 2

/-- The lower half of a word is its first two bytes. -/
theorem lower_half_load32 (m : Memory) (a : Word) :
    (m.load32 a).setWidth 16 = m (a + 1) ++ m a := by
  rw [Memory.load32]
  apply BitVec.eq_of_getLsbD_eq
  intro i hi
  rw [BitVec.getLsbD_setWidth, decide_eq_true hi, Bool.true_and, BitVec.getLsbD_append,
    BitVec.getLsbD_append, BitVec.getLsbD_append, BitVec.getLsbD_append]
  by_cases h8 : i < 8
  · rw [if_pos h8, if_pos h8]
  · rw [if_neg h8, if_neg h8, if_pos (by omega)]

/-- A word of a table is in it. -/
theorem Symbols.load32_gate_congr (h : ∀ b, InSpan b S.idt 2048 → m' b = m b) (v : BitVec 8) :
    S.gateAt m' v = S.gateAt m v := by
  have hv := toNat_vector v
  have hlt : v.toNat < 256 := v.isLt
  rw [Symbols.gateAt, Symbols.gateAt]
  generalize 8 * v.setWidth 32 = x at hv
  have hlow : m'.load32 (S.idt + x) = m.load32 (S.idt + x) := by
    refine Memory.load32_congr fun i hi => h _ ?_
    exact inSpan_of_inSpan_add (by omega) (by decide) (inSpan_add_ofNat hi)
  have hhigh : m'.load32 (S.idt + x + 4) = m.load32 (S.idt + x + 4) := by
    refine Memory.load32_congr fun i hi => h _ ?_
    rw [BitVec.add_assoc S.idt]
    exact inSpan_of_inSpan_add (by bv_omega) (by decide) (inSpan_add_ofNat hi)
  rw [hlow, hhigh]

theorem Symbols.descAt_congr {s : Selector} {n : ℕ} (h : ∀ b, InSpan b S.gdt n → m' b = m b)
    (hs : (descriptorOffset s).toNat + 8 ≤ n) (hn : n ≤ 64) : S.descAt m' s = S.descAt m s := by
  rw [Symbols.descAt, Symbols.descAt]
  generalize descriptorOffset s = x at hs
  have hlow : m'.load32 (S.gdt + x) = m.load32 (S.gdt + x) := by
    refine Memory.load32_congr fun i hi => h _ ?_
    exact inSpan_of_inSpan_add (by omega) (by omega) (inSpan_add_ofNat hi)
  have hhigh : m'.load32 (S.gdt + x + 4) = m.load32 (S.gdt + x + 4) := by
    refine Memory.load32_congr fun i hi => h _ ?_
    rw [BitVec.add_assoc S.gdt]
    exact inSpan_of_inSpan_add (by bv_omega) (by omega) (inSpan_add_ofNat hi)
  rw [hlow, hhigh]

theorem flatSegments_offset : ∀ p ∈ flatSegments, (descriptorOffset p.1).toNat + 8 ≤ 64 := by
  simp only [flatSegments, List.forall_mem_cons]
  exact ⟨by decide, by decide, by decide, by decide, by simp⟩

/-- The tables are what their bytes say. -/
theorem Tabled.congr (h : Tabled S m) (hm : ∀ b, S.InTables b → m' b = m b) : Tabled S m' := by
  have hgate : ∀ v, S.gateAt m' v = S.gateAt m v :=
    S.load32_gate_congr fun b hb => hm b (.inr (.inl hb))
  refine ⟨fun g hg => (hgate _).trans (h.gates g hg), fun v hv => ?_, fun p hp => ?_, ?_⟩
  · rw [hgate]
    exact h.noGate v hv
  · rw [S.descAt_congr (fun b hb => hm b (.inl hb)) (flatSegments_offset p hp) (by decide)]
    exact h.segments p hp
  · have h0 : m' (S.tss + 8) = m (S.tss + 8) := by
      refine hm _ (.inr (.inr ?_))
      unfold InSpan
      bv_omega
    have h1 : m' (S.tss + 8 + 1) = m (S.tss + 8 + 1) := by
      refine hm _ (.inr (.inr ?_))
      unfold InSpan
      bv_omega
    rw [lower_half_load32, h0, h1, ← lower_half_load32]
    exact h.ss0

/-! ## `entry` -/

/-- In the descriptor table `entry` stores two descriptors. -/
theorem initSegments_gdt (hb : InSpan b S.gdt 64) : initSegments S m b
    = storeDesc S kernelTss (theTssDesc S) (storeDesc S kernelLdt (theLdtDesc S) m) b := by
  have htss : ¬ InSpan b S.tss 104 := S.apart_gdt_tss b hb
  have hout : ∀ {x : Word} {n : ℕ}, x.toNat + n ≤ 104 → ¬ InSpan b (S.tss + x) n := fun hx hin =>
    htss (inSpan_of_inSpan_add hx (by decide) hin)
  rw [initSegments, Memory.store32_of_not_inSpan _ _ (hout (by decide)),
    store16_kept _ (hout (by decide)), store16_kept _ (hout (by decide))]

/-- It does not touch the gates. -/
theorem initSegments_idt (hb : InSpan b S.idt 2048) : initSegments S m b = m b := by
  have hgdt : ¬ InSpan b S.gdt 64 := fun hin => S.apart_gdt_idt b hin hb
  have htss : ¬ InSpan b S.tss 104 := S.apart_idt_tss b hb
  have hout : ∀ {x : Word} {n : ℕ}, x.toNat + n ≤ 104 → ¬ InSpan b (S.tss + x) n := fun hx hin =>
    htss (inSpan_of_inSpan_add hx (by decide) hin)
  rw [initSegments, Memory.store32_of_not_inSpan _ _ (hout (by decide)),
    store16_kept _ (hout (by decide)), store16_kept _ (hout (by decide)),
    storeDesc_kept (by decide) _ hgdt, storeDesc_kept (by decide) _ hgdt]

/-- `entry` stores to its tables only. -/
theorem initTables_kept (hgdt : ¬ InSpan b S.gdt 64) (hidt : ¬ InSpan b S.idt 2048)
    (htss : ¬ InSpan b S.tss 104) : initTables S m b = m b := by
  have hout : ∀ {x : Word} {n : ℕ}, x.toNat + n ≤ 104 → ¬ InSpan b (S.tss + x) n := fun hx hin =>
    htss (inSpan_of_inSpan_add hx (by decide) hin)
  rw [initTables, idtInit_eq_foldl, foldl_storeGate_kept _ hidt, initSegments,
    Memory.store32_of_not_inSpan _ _ (hout (by decide)), store16_kept _ (hout (by decide)),
    store16_kept _ (hout (by decide)), storeDesc_kept (by decide) _ hgdt,
    storeDesc_kept (by decide) _ hgdt]

theorem initTables_gdt (hb : InSpan b S.gdt 64) : initTables S m b
    = storeDesc S kernelTss (theTssDesc S) (storeDesc S kernelLdt (theLdtDesc S) m) b := by
  rw [initTables, idtInit_eq_foldl, foldl_storeGate_kept _ (S.apart_gdt_idt b hb),
    initSegments_gdt hb]

/-- `ltr` loads the address of the TSS. -/
theorem tss_tables (S : Symbols) (m : Memory) : (S.tables (initTables S m)).tss = S.tss := by
  have hoff : (descriptorOffset kernelTss).toNat + 8 ≤ 64 := by decide
  have hdesc := S.descAt_congr (m := storeDesc S kernelTss (theTssDesc S)
    (storeDesc S kernelLdt (theLdtDesc S) m)) (fun b hb => initTables_gdt (m := m) hb) hoff
    (by decide)
  show (S.descAt (initTables S m) kernelTss).base = S.tss
  rw [hdesc, Symbols.descAt, storeDesc, Memory.load32_store32_self,
    Memory.load32_store32_of_disjoint _ _ (by bv_omega) (by bv_omega), Memory.load32_store32_self]
  exact base_setParams _ _ _

/-- The first six descriptors are those of `x86_desc.S`. -/
theorem initTables_flat (hb : InSpan b S.gdt 48) : initTables S m b = m b := by
  have hoff : descriptorOffset kernelTss = 48 ∧ descriptorOffset kernelLdt = 56 := by decide
  rw [initTables_gdt (by unfold InSpan at hb ⊢; omega), storeDesc, storeDesc, hoff.1, hoff.2]
  unfold InSpan at hb
  rw [Memory.store32_of_not_inSpan _ _ (by unfold InSpan; bv_omega),
    Memory.store32_of_not_inSpan _ _ (by unfold InSpan; bv_omega),
    Memory.store32_of_not_inSpan _ _ (by unfold InSpan; bv_omega),
    Memory.store32_of_not_inSpan _ _ (by unfold InSpan; bv_omega)]

theorem flatSegments_quad : ∀ p ∈ flatSegments, ∃ i, gdtQuads[i]? = some p.2 ∧
    descriptorOffset p.1 = 8 * BitVec.ofNat 32 i ∧ (descriptorOffset p.1).toNat + 8 ≤ 48 := by
  simp only [flatSegments, List.forall_mem_cons]
  exact ⟨⟨2, by decide⟩, ⟨3, by decide⟩, ⟨4, by decide⟩, ⟨5, by decide⟩, by simp⟩

/-- **Boot** leaves the tables that the rest of the kernel relies on. -/
theorem tabled_initTables (h : Loaded S m) : Tabled S (initTables S m) := by
  have hnodup : (idtGates.map fun g => g.2.1).Nodup := by decide
  have htype : ∀ g ∈ idtGates, g.1 &&& msb16 = 0 := by decide
  obtain ⟨hin, hout⟩ := gateAt_foldl (S := S) (m := initSegments S m) idtGates hnodup htype
  constructor
  · exact hin
  · intro v hv hgate
    -- an entry without a gate has type 0 from the loader on
    have hhigh : (S.gateAt m v).type = 0 := by
      rw [Symbols.gateAt, h.idt v]
      rfl
    rw [initTables, idtInit_eq_foldl, hout v hv,
      S.load32_gate_congr fun b hb => initSegments_idt hb] at hgate
    rw [Gate.IsGate, hhigh] at hgate
    exact absurd hgate.2 (by decide)
  · intro p hp
    obtain ⟨i, hget, hoff, hle⟩ := flatSegments_quad p hp
    obtain ⟨hlow, hhigh⟩ := h.gdt i p.2 hget
    rw [S.descAt_congr (fun b hb => initTables_flat (m := m) hb) hle (by decide), Symbols.descAt,
      hoff, hlow, hhigh]
  · have hnot : ∀ {b}, InSpan b (S.tss + 8) 2 → ¬ InSpan b S.idt 2048 := by
      intro b hb hin
      have htss : InSpan b S.tss 104 := inSpan_of_inSpan_add (by decide) (by decide) hb
      exact S.apart_idt_tss b hin htss
    -- `ss0` is stored there, and neither `esp0` nor the gates overlap it
    have hbyte : ∀ {b}, InSpan b (S.tss + 8) 2 → initTables S m b
        = store16 (store16 (storeDesc S kernelTss (theTssDesc S) (storeDesc S kernelLdt
          (theLdtDesc S) m)) (S.tss + 96) kernelLdt) (S.tss + 8) kernelDs b := by
      intro b hb
      rw [initTables, idtInit_eq_foldl, foldl_storeGate_kept _ (hnot hb), initSegments]
      apply Memory.store32_of_not_inSpan
      unfold InSpan at hb ⊢
      bv_omega
    have h0 : initTables S m (S.tss + 8) = 0x18 := by
      rw [hbyte (by unfold InSpan; bv_omega), store16, Memory.store8_of_ne _ _ (by bv_omega),
        Memory.store8_self]
      rfl
    have h1 : initTables S m (S.tss + 8 + 1) = 0 := by
      rw [hbyte (by unfold InSpan; bv_omega), store16, Memory.store8_self]
      rfl
    rw [lower_half_load32, h0, h1]
    rfl

/-! ## Where an interrupt goes -/

variable {ρ : Type} {c e : Core ρ} {software : Bool}

/-- The table registers after boot. -/
def Symbols.registers (S : Symbols) : TableRegisters := ⟨S.gdt, 63, S.idt, 2047, S.tss⟩

theorem tables_initTables (S : Symbols) (m : Memory) :
    S.tables (initTables S m) = S.registers := by
  rw [Symbols.registers, ← tss_tables S m]
  rfl

/-- The gate that `idt_init` sets for a vector. -/
def Symbols.vectorGate (S : Symbols) (v : BitVec 8) : Option Gate :=
  (idtGates.find? fun g => g.2.1 = v).map fun g => gateOf g.1 (S.entry g.2.2)

/-- Where `idt_init` leads: a vector without a gate and one that its caller may not use raise a
general protection fault, and the others enter their handler, from user mode on the stack of
`tss.esp0`. -/
def Symbols.route (S : Symbols) (software : Bool) (v : BitVec 8) (c : Core ρ) :
    Except Refusal (Core ρ) :=
  match S.vectorGate v with
  | none => .error .generalProtection
  | some g =>
    if software = true ∧ g.dpl < c.cpl then .error .generalProtection
    else if g.type = 0x5 then .error .taskSwitch
    else if c.cpl = 0 then .ok (jump g 0 (pushFrame c))
    else .ok (jump g 0 (pushOuterFrame c (c.mem.load32 (S.tss + 4)) kernelDs))

theorem idtGates_type : ∀ g ∈ idtGates, g.1.extractLsb' 8 4 = 0x5 ∨ g.1.extractLsb' 8 4 = 0xE ∨
    g.1.extractLsb' 8 4 = 0xF := by
  decide

theorem idtGates_bits : ∀ g ∈ idtGates, g.1.getLsbD 12 = false ∧ g.1.getLsbD 15 = true := by
  decide

theorem stackPointer_zero (S : Symbols) (m : Memory) :
    S.registers.stackPointer m 0 = m.load32 (S.tss + 4) := by
  have hzero : S.tss + 4 + 8 * (0 : BitVec 2).setWidth 32 = S.tss + 4 := BitVec.add_zero _
  show m.load32 (S.tss + 4 + 8 * (0 : BitVec 2).setWidth 32) = _
  rw [hzero]

theorem Tabled.stackSegment (h : Tabled S m) : S.registers.stackSegment m 0 = kernelDs := by
  have hzero : S.tss + 8 + 8 * (0 : BitVec 2).setWidth 32 = S.tss + 8 := BitVec.add_zero _
  show (m.load32 (S.tss + 8 + 8 * (0 : BitVec 2).setWidth 32)).setWidth 16 = kernelDs
  rw [hzero]
  exact h.ss0

/-- The interrupt and trap gates lead to handlers. -/
theorem Tabled.leads (h : Tabled S m) {g : Word × BitVec 8 × Entry} (hg : g ∈ idtGates)
    (htype : g.1.extractLsb' 8 4 ≠ 0x5) :
    S.registers.Leads m g.2.1 (gateOf g.1 (S.entry g.2.2)) := by
  have hv : g.2.1.toNat < 256 := g.2.1.isLt
  obtain ⟨hsystem, hpresent⟩ := idtGates_bits g hg
  -- the flat segments of the kernel, as the descriptors say
  have hcs : S.registers.descriptor m kernelCs = Descriptor.ofWords 0x0000FFFF 0x00CF9A00 :=
    h.segments (kernelCs, 0x00CF9A000000FFFF) (by decide)
  have hds : S.registers.descriptor m kernelDs = Descriptor.ofWords 0x0000FFFF 0x00CF9200 :=
    h.segments (kernelDs, 0x00CF92000000FFFF) (by decide)
  have hss := h.stackSegment
  constructor
  · exact h.gates g hg
  · show 8 * g.2.1.toNat + 7 ≤ 2047
    omega
  · show (!g.1.getLsbD 12) = true
    rw [hsystem]
    rfl
  · exact (idtGates_type g hg).resolve_left htype
  · exact hpresent
  · show S.registers.Holds kernelCs
    exact ⟨by decide, by show (descriptorOffset kernelCs).toNat + 7 ≤ 63; decide⟩
  · show (S.registers.descriptor m kernelCs).isCode = true
    rw [hcs]
    decide
  · show (S.registers.descriptor m kernelCs).dpl = 0
    rw [hcs]
    decide
  · show (S.registers.descriptor m kernelCs).conforming = false
    rw [hcs]
    decide
  · show (S.registers.descriptor m kernelCs).present = true
    rw [hcs]
    decide
  · rw [hss]
    exact ⟨by decide, by show (descriptorOffset kernelDs).toNat + 7 ≤ 63; decide⟩
  · rw [hss]
    decide
  · rw [hss, hds]
    decide
  · rw [hss, hds]
    decide
  · rw [hss, hds]
    decide

/-- **The gates** lead where `idt_init` says, for every vector, from every level. -/
theorem Tabled.raise_eq (h : Tabled S c.mem) (software : Bool) (v : BitVec 8) :
    raise S.registers software v c = S.route software v c := by
  have hv : v.toNat < 256 := v.isLt
  have hin : 8 * v.toNat + 7 ≤ S.registers.idtLimit := by
    show 8 * v.toNat + 7 ≤ 2047
    omega
  rw [Symbols.route, Symbols.vectorGate]
  cases hfind : idtGates.find? fun g => g.2.1 = v with
  | none =>
    -- no gate: the entry is as the loader has left it, zero
    have hnone : ∀ g ∈ idtGates, g.2.1 ≠ v := by
      intro g hg heq
      have hnot := List.find?_eq_none.mp hfind g hg
      exact hnot (decide_eq_true heq)
    exact raise_of_not_isGate (h.noGate v hnone)
  | some g =>
    have hg := List.mem_of_find?_eq_some hfind
    obtain rfl : g.2.1 = v := by simpa using List.find?_some hfind
    have hgate : S.registers.gate c.mem g.2.1 = gateOf g.1 (S.entry g.2.2) := h.gates g hg
    obtain ⟨hsystem, hpresent⟩ := idtGates_bits g hg
    simp only [Option.map_some]
    -- a program may only raise the gates of level 3 itself
    by_cases hlow : software = true ∧ (gateOf g.1 (S.entry g.2.2)).dpl < c.cpl
    · obtain ⟨rfl, hlow'⟩ := hlow
      rw [if_pos ⟨rfl, hlow'⟩]
      exact raise_refused hin (hgate ▸ hlow')
    · have hsoft : software = true → ¬ (gateOf g.1 (S.entry g.2.2)).dpl < c.cpl :=
        fun hs hd => hlow ⟨hs, hd⟩
      rw [if_neg hlow]
      -- the gate of vector 8 leads to a task
      by_cases htask : g.1.extractLsb' 8 4 = 0x5
      · rw [if_pos (show (gateOf g.1 (S.entry g.2.2)).type = 0x5 from htask)]
        refine raise_taskGate hin ?_ ?_ ?_ ?_
        · rw [hgate, gateOf, hsystem]
          rfl
        · rw [hgate]
          exact htask
        · rw [hgate]
          exact hpresent
        · rw [hgate]
          exact hsoft
      · have hleads := h.leads hg htask
        rw [if_neg (show (gateOf g.1 (S.entry g.2.2)).type ≠ 0x5 from htask)]
        by_cases hcpl : c.cpl = 0
        · rw [if_pos hcpl]
          exact hleads.raise_same hsoft hcpl
        · rw [if_neg hcpl, hleads.raise_inner hsoft hcpl, h.stackSegment, stackPointer_zero]

/-! ## In every run -/

/-- The gates of level 3. -/
def userGates : List (Word × BitVec 8 × Entry) :=
  [(systemIntrGate, 3, .int3), (systemGate, 4, .overflow), (systemGate, 5, .bounds),
    (systemGate, 128, .handleSyscall)]

theorem mem_userGates : ∀ g ∈ idtGates,
    g.1.extractLsb' 8 4 ≠ 0x5 ∧ ¬ g.1.extractLsb' 13 2 < 3 ↔ g ∈ userGates := by
  decide

theorem userGates_subset : ∀ g ∈ userGates, g ∈ idtGates ∧ (idtGates.find? fun g' =>
    g'.2.1 = g.2.1) = some g := by
  decide

/-- From user mode `INT n` enters the kernel through the gates of level 3 only. -/
theorem route_user (hcpl : c.cpl = 3) : S.route true v c = .ok e ↔
    ∃ g ∈ userGates, g.2.1 = v ∧ e = jump (gateOf g.1 (S.entry g.2.2)) 0
      (pushOuterFrame c (c.mem.load32 (S.tss + 4)) kernelDs) := by
  have hne : c.cpl ≠ 0 := by
    rw [hcpl]
    decide
  constructor
  · intro h
    rw [Symbols.route, Symbols.vectorGate] at h
    cases hfind : idtGates.find? fun g => g.2.1 = v with
    | none =>
      rw [hfind] at h
      cases h
    | some g =>
      have hg := List.mem_of_find?_eq_some hfind
      have hv : g.2.1 = v := by simpa using List.find?_some hfind
      rw [hfind] at h
      simp only [Option.map_some] at h
      split_ifs at h with hlow htask
      have huser : ¬ (gateOf g.1 (S.entry g.2.2)).dpl < 3 := fun hlt => hlow ⟨trivial, hcpl ▸ hlt⟩
      refine ⟨g, (mem_userGates g hg).mp ⟨htask, huser⟩, hv, ?_⟩
      exact (Except.ok.inj h).symm
  · rintro ⟨g, hg, rfl, rfl⟩
    obtain ⟨hmem, hfind⟩ := userGates_subset g hg
    obtain ⟨htask, huser⟩ := (mem_userGates g hmem).mpr hg
    rw [Symbols.route, Symbols.vectorGate, hfind]
    simp only [Option.map_some]
    rw [if_neg (fun hlow => huser (hcpl ▸ hlow.2)),
      if_neg (show (gateOf g.1 (S.entry g.2.2)).type ≠ 0x5 from htask), if_neg hne]

/-- The tables are in the kernel's memory, and apart from the page tables. -/
def Symbols.Fits (S : Symbols) (L : Layout) : Prop :=
  ∀ b, S.InTables b → b.toNat < 0x800000 ∧ Outside L b ∧ ¬ InVideoPage b

variable {L : Layout} {s s₀ s' : State} {es : List Page.Event}

/-- No run changes the tables unless the kernel stores to them. -/
theorem tabled_of_run (hfits : S.Fits L) (hload : Loaded S m) (hboot : Boot L s)
    (hm : ∀ b, S.InTables b → s.mmu.mem b = initTables S m b) (hinit : pagingInit L s = some s₀)
    (hr : (pageLTS L).Run s₀ es s') (hk : ∀ b, S.InTables b → ∀ x, Page.Event.store false b x ∉ es) :
    Tabled S s'.mmu.mem := by
  apply (tabled_initTables hload).congr
  intro b hb
  obtain ⟨hlow, hout, hvideo⟩ := hfits b hb
  have hprog : ∀ i, ¬ InProgPage b i := by
    intro i hin
    rw [inProgPage_iff] at hin
    omega
  have hinit' : (pageLTS L).init s₀ := ⟨s, hboot, hinit⟩
  rw [← hm b hb, ← pagingInit_kept hboot hinit hout]
  exact kept_of_installed (installed_of_run (installed_of_init hinit') (.nil s₀)) hr hout hvideo
    (fun i hin => absurd hin (hprog i)) fun _ => hk b hb

/-- **The gates hold.** From boot on, in every run of the paging unit in which the kernel's own code
does not store to the tables, each vector goes where `idt_init` says, and a program in user mode
enters the kernel through four handlers only, at their first instruction and on the stack of
`tss.esp0`. -/
theorem raise_of_run (hfits : S.Fits L) (hload : Loaded S m) (hboot : Boot L s)
    (hm : ∀ b, S.InTables b → s.mmu.mem b = initTables S m b) (hinit : pagingInit L s = some s₀)
    (hr : (pageLTS L).Run s₀ es s') (hk : ∀ b, S.InTables b → ∀ x, Page.Event.store false b x ∉ es)
    (c : Core ρ) (hc : c.mem = s'.mmu.mem) :
    (∀ software v, raise (S.tables (initTables S m)) software v c = S.route software v c) ∧
      (c.cpl = 3 → ∀ v e, raise (S.tables (initTables S m)) true v c = .ok e ↔
        ∃ g ∈ userGates, g.2.1 = v ∧ e = jump (gateOf g.1 (S.entry g.2.2)) 0
          (pushOuterFrame c (c.mem.load32 (S.tss + 4)) kernelDs)) := by
  have htab : Tabled S c.mem := hc ▸ tabled_of_run hfits hload hboot hm hinit hr hk
  rw [tables_initTables]
  refine ⟨htab.raise_eq, fun hcpl v e => ?_⟩
  rw [htab.raise_eq]
  exact route_user hcpl

/-! ## A boot -/

/-- The tables behind the page tables. -/
def sampleSymbols : Symbols where
  gdt := 0x410000
  idt := 0x411000
  tss := 0x412000
  ldt := 0x413000
  entry i := if i = .handleSyscall then 0x420000 else 0x421000
  apart := by
    simp only [List.pairwise_cons, List.mem_cons, List.not_mem_nil, or_false, SpansApart]
    refine ⟨?_, ?_, fun _ h => absurd h not_false, List.Pairwise.nil⟩
    · rintro q (rfl | rfl) b h h'
      · unfold InSpan at h h'
        bv_omega
      · unfold InSpan at h h'
        bv_omega
    · rintro q rfl b h h'
      unfold InSpan at h h'
      bv_omega

/-- The memory after the boot loader. -/
def sampleLoaded : Memory := fun a =>
  if InSpan a 0x410000 64 then
    ((gdtQuads[(a - 0x410000).toNat / 8]?).getD 0).extractLsb' (8 * ((a - 0x410000).toNat % 8)) 8
  else 0

theorem loaded_sampleLoaded : Loaded sampleSymbols sampleLoaded := by
  constructor
  · have hquads : ∀ i < 8, sampleLoaded.load32 (0x410000 + 8 * BitVec.ofNat 32 i)
          = ((gdtQuads[i]?).getD 0).extractLsb' 0 32 ∧
        sampleLoaded.load32 (0x410000 + 8 * BitVec.ofNat 32 i + 4)
          = ((gdtQuads[i]?).getD 0).extractLsb' 32 32 := by
      decide
    intro i q hq
    have hi : i < 8 := (List.getElem?_eq_some_iff.mp hq).1
    have h := hquads i hi
    rw [hq, Option.getD_some] at h
    exact h
  · intro v
    have hv := toNat_vector v
    have hlt : v.toNat < 256 := v.isLt
    have hzero : ∀ i < 4, sampleLoaded (0x411000 + 8 * v.setWidth 32 + 4 + BitVec.ofNat 32 i)
        = 0 := by
      intro i hi
      generalize 8 * v.setWidth 32 = x at hv
      rw [sampleLoaded, if_neg]
      unfold InSpan
      have hi' : (BitVec.ofNat 32 i).toNat = i := by
        rw [BitVec.toNat_ofNat, Nat.mod_eq_of_lt (by omega)]
      generalize BitVec.ofNat 32 i = y at hi'
      bv_omega
    have hword : (0 : Byte) ++ (0 : Byte) ++ (0 : Byte) ++ (0 : Byte) = (0 : Word) := by decide
    exact (Memory.load32_congr (m := fun _ => 0) hzero).trans hword

/-- The state that `paging_init` is called in. -/
def sampleBooted : State :=
  ⟨⟨initTables sampleSymbols sampleLoaded, 0, 0, 0, fun _ => none⟩, fun _ => false⟩

/-- The page tables are still zero. -/
theorem boot_sampleBooted : Boot sampleLayout sampleBooted := by
  refine ⟨by decide, by decide, fun t ht i hi => ?_⟩
  have hzero : ∀ b, InSpan b t 4096 → sampleBooted.mmu.mem b = 0 := by
    intro b hb
    have htables : t = 0x401000 ∨ t = 0x402000 ∨ t = 0x405000 := by
      simpa [Layout.tables, sampleLayout] using ht
    have hlow : 0x401000 ≤ b.toNat ∧ b.toNat < 0x406000 := by
      unfold InSpan at hb
      rcases htables with rfl | rfl | rfl <;> bv_omega
    have hgdt : ¬ InSpan b 0x410000 64 := by unfold InSpan; bv_omega
    have hidt : ¬ InSpan b 0x411000 2048 := by unfold InSpan; bv_omega
    have htss : ¬ InSpan b 0x412000 104 := by unfold InSpan; bv_omega
    have hkept : initTables sampleSymbols sampleLoaded b = sampleLoaded b :=
      initTables_kept (S := sampleSymbols) hgdt hidt htss
    show initTables sampleSymbols sampleLoaded b = 0
    rw [hkept, sampleLoaded, if_neg hgdt]
  have hword : (0 : Byte) ++ (0 : Byte) ++ (0 : Byte) ++ (0 : Byte) = (0 : Word) := by decide
  exact (Paging.entry_congr (m := fun _ => 0) hi hzero).trans hword

theorem fits_sampleSymbols : sampleSymbols.Fits sampleLayout := by
  intro b hb
  have hspan : 0x410000 ≤ b.toNat ∧ b.toNat < 0x413000 := by
    rcases hb with hb | hb | hb
    · change InSpan b 0x410000 64 at hb
      unfold InSpan at hb
      bv_omega
    · change InSpan b 0x411000 2048 at hb
      unfold InSpan at hb
      bv_omega
    · change InSpan b (0x412000 + 8) 2 at hb
      unfold InSpan at hb
      bv_omega
  refine ⟨by omega, fun t ht hin => ?_, fun hv => ?_⟩
  · have htables : t = 0x401000 ∨ t = 0x402000 ∨ t = 0x405000 := by
      simpa [Layout.tables, sampleLayout] using ht
    unfold InSpan at hin
    rcases htables with rfl | rfl | rfl <;> bv_omega
  · rw [inVideoPage_iff] at hv
    omega

/-- A program about to execute an instruction. -/
def sampleCore (m : Memory) : Core Unit where
  reg _ := 0
  esp := 0x83FFFFC
  eip := 0x8048000
  eflags := 0x202
  cs := userCs
  ss := userDs
  ds := userDs
  es := userDs
  mem := m

/-- A program that has got its page makes a system call; it may not raise the interrupt of the
keyboard. -/
theorem raise_of_run_sample : ∃ s₀ s', pagingInit sampleLayout sampleBooted = some s₀ ∧
    (pageLTS sampleLayout).Run s₀ [.call .addProgPage] s' ∧
    (∃ e, raise (sampleSymbols.tables (initTables sampleSymbols sampleLoaded)) true 128
      (sampleCore s'.mmu.mem) = .ok e ∧ e.eip = 0x420000 ∧ e.cs = kernelCs) ∧
    raise (sampleSymbols.tables (initTables sampleSymbols sampleLoaded)) true 33
      (sampleCore s'.mmu.mem) = .error .generalProtection := by
  obtain ⟨s₀, hs₀, h0⟩ := pagingInit_installed boot_sampleBooted
  obtain ⟨s', hs', -⟩ := Page.Call.run_installed h0 .addProgPage
  have hrun : (pageLTS sampleLayout).Run s₀ [.call .addProgPage] s' := .cons hs' (.nil _)
  obtain ⟨hroute, huser⟩ := raise_of_run fits_sampleSymbols loaded_sampleLoaded boot_sampleBooted
    (fun _ _ => rfl) hs₀ hrun (fun _ _ _ => by simp) (sampleCore s'.mmu.mem) rfl
  have hcpl : (sampleCore s'.mmu.mem).cpl = 3 := by
    show rpl userCs = 3
    decide
  refine ⟨s₀, s', hs₀, hrun, ⟨_, (huser hcpl 128 _).mpr ⟨(systemGate, 128, .handleSyscall),
    by decide, rfl, rfl⟩, rfl, ?_⟩, ?_⟩
  · show withRpl kernelCs 0 = kernelCs
    decide
  · have hgate : sampleSymbols.vectorGate 33 = some (gateOf intrGate 0x421000) := rfl
    have hlow : (gateOf intrGate 0x421000).dpl < (3 : BitVec 2) := by decide
    rw [hroute, Symbols.route, hgate]
    exact if_pos ⟨rfl, hcpl ▸ hlow⟩

end HieUnix
