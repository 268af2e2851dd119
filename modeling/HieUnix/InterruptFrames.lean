import HieUnix.SyscallEntry
import HieUnix.DescriptorTables

/-!
# The interrupt wrappers

The stubs of `x86_idt.S` for the timer, the keyboard, the clock and the mouse: they save the
registers on the stack, call their C function and restore them before `iret`. The C functions are a
parameter with the calling convention as its hypothesis; they may change any of `kernelData` and the
stack below theirs.

An interrupt gives the interrupted program back as it was, in user mode and in the kernel
(`irq_restores`), so that a program in user mode does not see it (`InUserMode.takes`).
-/

namespace HieUnix.Interrupt

open X86 Function

/-! ## Instructions -/

section

variable (c : Core Reg)

/-- `pushl` of a register. -/
def pushl (r : Reg) : Core Reg := c.push (c.reg r)

/-- `popl` of a register. -/
def popl (r : Reg) : Core Reg := { c with reg := update c.reg r c.top, esp := c.esp + 4 }

/-- `pushfl`. -/
def pushfl : Core Reg := c.push c.eflags

/-- `popfl`, at level 0. -/
def popfl : Core Reg := { c with eflags := c.top, esp := c.esp + 4 }

/-- `pusha`: the stack pointer pushed is that before the instruction. -/
def pusha : Core Reg :=
  c.pushAll [c.reg .edi, c.reg .esi, c.reg .ebp, c.esp, c.reg .ebx, c.reg .edx, c.reg .ecx,
    c.reg .eax]

/-- `popa`: the stack pointer's word is skipped. -/
def popa : Core Reg :=
  let c := popl (popl (popl c .edi) .esi) .ebp
  let c := { c with esp := c.esp + 4 }
  popl (popl (popl (popl c .ebx) .edx) .ecx) .eax

/-- `cli`. -/
def cli : Core Reg := { c with eflags := c.eflags &&& ~~~0x200 }

/-- `sti`; the processor takes no interrupt before the next instruction. -/
def sti : Core Reg := { c with eflags := c.eflags ||| 0x200 }

/-- `cld`. -/
def cld : Core Reg := { c with eflags := c.eflags &&& ~~~0x400 }

end

/-- `SAVE_ALL`. -/
def saveAll (c : Core Reg) : Core Reg := pushfl (pusha c)

/-- `RESTORE_ALL`. -/
def restoreAll (c : Core Reg) : Core Reg := popa (popfl c)

/-- `SAVE_ALL_REG`. -/
def saveAllReg (c : Core Reg) : Core Reg :=
  let c := pushfl (cld c)
  pushl (pushl (pushl (pushl (pushl (pushl (pushl c .ebp) .eax) .edi) .esi) .edx) .ecx) .ebx

/-- `RESTORE_ALL_REG`. -/
def restoreAllReg (c : Core Reg) : Core Reg :=
  popfl (popl (popl (popl (popl (popl (popl (popl c .ebx) .ecx) .edx) .esi) .edi) .eax) .ebp)

/-! ## The stubs -/

/-- The devices with a handler. -/
inductive Irq
  | pit
  | keyboard
  | rtc
  | mouse
deriving DecidableEq, Repr

/-- The C functions `do_handle_pit`, `do_handle_keyboard`, `do_handle_rtc` and `do_handle_mouse`,
from their first instruction to the one after the call, and the addresses they return to. -/
structure Handlers where
  run : Irq → Core Reg → Core Reg → Prop
  retAddr : Irq → Word

/-- A stub: the registers are saved, the function is called, they are restored, and `iret`. -/
def stub (H : Handlers) (T : TableRegisters) (i : Irq) (save restore : Core Reg → Core Reg)
    (c c' : Core Reg) : Prop :=
  ∃ r, H.run i ((save c).push (H.retAddr i)) r ∧ c' = iret T (restore r)

/-- `handle_rtc`. -/
def handleRtc (H : Handlers) (T : TableRegisters) : Core Reg → Core Reg → Prop :=
  stub H T .rtc saveAll restoreAll

/-- `handle_keyboard`. -/
def handleKeyboard (H : Handlers) (T : TableRegisters) : Core Reg → Core Reg → Prop :=
  stub H T .keyboard saveAll restoreAll

/-- `handle_pit`. -/
def handlePit (H : Handlers) (T : TableRegisters) : Core Reg → Core Reg → Prop :=
  stub H T .pit (fun c => saveAllReg (cli c)) fun c => sti (restoreAllReg c)

/-- `handle_mouse`. -/
def handleMouse (H : Handlers) (T : TableRegisters) : Core Reg → Core Reg → Prop :=
  stub H T .mouse (fun c => saveAll (cli c)) fun c => sti (restoreAll c)

/-- The vector of a device. -/
def Irq.vector : Irq → BitVec 8
  | .pit => 32
  | .keyboard => 33
  | .rtc => 40
  | .mouse => 44

/-- Its stub, which `idt_init` puts there. -/
def Irq.entry : Irq → Entry
  | .pit => .handlePit
  | .keyboard => .handleKeyboard
  | .rtc => .handleRtc
  | .mouse => .handleMouse

/-- What the stub does. -/
def Irq.handle (H : Handlers) (T : TableRegisters) : Irq → Core Reg → Core Reg → Prop
  | .pit => handlePit H T
  | .keyboard => handleKeyboard H T
  | .rtc => handleRtc H T
  | .mouse => handleMouse H T

/-- An interrupt taken and returned from. -/
def Irq.takes (H : Handlers) (T : TableRegisters) (i : Irq) (c c' : Core Reg) : Prop :=
  ∃ e, raise T false i.vector c = .ok e ∧ i.handle H T e c'

/-! ## What a stub leaves -/

variable {H : Handlers} {T : TableRegisters} {i : Irq} {c c' e r : Core Reg}
  {KernelData : Word → Prop}
  {depth : ℕ} {save restore : Core Reg → Core Reg} {words : Core Reg → List Word} {n : ℕ}

/-- The calling convention: a function without arguments, entered at `c`, returns at `r`. It pops
the return address, keeps the segment registers, and changes at most the kernel's data and `depth`
bytes of the stack, of which the return address is the first word. -/
structure Convention (KernelData : Word → Prop) (depth : ℕ) (c r : Core Reg) : Prop where
  esp : r.esp = c.esp + 4
  cs : r.cs = c.cs
  ss : r.ss = c.ss
  ds : r.ds = c.ds
  es : r.es = c.es
  mem : ∀ b, ¬ KernelData b → ¬ Below (c.esp + 4) depth b → r.mem b = c.mem b

/-- `save` pushes `n` words, from which `restore` restores the registers. -/
structure Saves (save restore : Core Reg → Core Reg) (words : Core Reg → List Word) (n : ℕ) :
    Prop where
  length : ∀ c, (words c).length = n
  push : ∀ c, ∃ flags, save c = Core.pushAll { c with eflags := flags } (words c)
  restore : ∀ c r, r.stack n = words c → ∃ flags, restore r
    = { r with reg := c.reg, eflags := flags, esp := r.esp + BitVec.ofNat 32 (4 * n) }

/-- The words of `SAVE_ALL`. -/
def savedWords (c : Core Reg) : List Word :=
  [c.eflags, c.reg .edi, c.reg .esi, c.reg .ebp, c.esp, c.reg .ebx, c.reg .edx, c.reg .ecx,
    c.reg .eax]

/-- The words of `SAVE_ALL_REG`. -/
def savedWordsReg (c : Core Reg) : List Word :=
  [c.reg .ebx, c.reg .ecx, c.reg .edx, c.reg .esi, c.reg .edi, c.reg .eax, c.reg .ebp,
    (cld c).eflags]

/-- `RESTORE_ALL` of the words of `SAVE_ALL`. -/
theorem restoreAll_eq (hs : r.stack 9 = savedWords c) : restoreAll r
    = { r with reg := c.reg, eflags := c.eflags, esp := r.esp + 36 } := by
  simp only [Core.stack, Memory.words, savedWords, List.cons.injEq, and_true] at hs
  obtain ⟨hflags, hedi, hesi, hebp, -, hebx, hedx, hecx, heax⟩ := hs
  have hreg : (restoreAll r).reg = c.reg := by
    funext x
    cases x with
    | eax => exact heax
    | ebx => exact hebx
    | ecx => exact hecx
    | edx => exact hedx
    | esi => exact hesi
    | edi => exact hedi
    | ebp => exact hebp
  have hesp : (restoreAll r).esp = r.esp + 36 := by
    show r.esp + 4 + 4 + 4 + 4 + 4 + 4 + 4 + 4 + 4 = r.esp + 36
    bv_omega
  have heflags : (restoreAll r).eflags = c.eflags := hflags
  rw [← hreg, ← hesp, ← heflags]
  rfl

/-- `RESTORE_ALL_REG` of the words of `SAVE_ALL_REG`. -/
theorem restoreAllReg_eq (hs : r.stack 8 = savedWordsReg c) : restoreAllReg r
    = { r with reg := c.reg, eflags := (cld c).eflags, esp := r.esp + 32 } := by
  simp only [Core.stack, Memory.words, savedWordsReg, List.cons.injEq, and_true] at hs
  obtain ⟨hebx, hecx, hedx, hesi, hedi, heax, hebp, hflags⟩ := hs
  have hreg : (restoreAllReg r).reg = c.reg := by
    funext x
    cases x with
    | eax => exact heax
    | ebx => exact hebx
    | ecx => exact hecx
    | edx => exact hedx
    | esi => exact hesi
    | edi => exact hedi
    | ebp => exact hebp
  have hesp : (restoreAllReg r).esp = r.esp + 32 := by
    show r.esp + 4 + 4 + 4 + 4 + 4 + 4 + 4 + 4 = r.esp + 32
    bv_omega
  have heflags : (restoreAllReg r).eflags = (cld c).eflags := hflags
  rw [← hreg, ← hesp, ← heflags]
  rfl

theorem saves_saveAll : Saves saveAll restoreAll savedWords 9 :=
  ⟨fun _ => rfl, fun c => ⟨c.eflags, rfl⟩, fun _ _ hs => ⟨_, restoreAll_eq hs⟩⟩

theorem saves_mouse :
    Saves (fun c => saveAll (cli c)) (fun c => sti (restoreAll c)) (fun c => savedWords (cli c))
      9 :=
  ⟨fun _ => rfl, fun c => ⟨(cli c).eflags, rfl⟩, fun _ _ hs => ⟨_, congrArg sti (restoreAll_eq hs)⟩⟩

theorem saves_pit : Saves (fun c => saveAllReg (cli c)) (fun c => sti (restoreAllReg c))
    (fun c => savedWordsReg (cli c)) 8 :=
  ⟨fun _ => rfl, fun c => ⟨(cld (cli c)).eflags, rfl⟩,
    fun _ _ hs => ⟨_, congrArg sti (restoreAllReg_eq hs)⟩⟩

/-- The registers and the segments of `r` at `iret` are those the stub was entered with at `e`, and
of the memory it has changed the kernel's data and the stack below. -/
structure Undone (KernelData : Word → Prop) (used : ℕ) (e r : Core Reg) : Prop where
  reg : r.reg = e.reg
  esp : r.esp = e.esp
  cs : r.cs = e.cs
  ss : r.ss = e.ss
  ds : r.ds = e.ds
  es : r.es = e.es
  mem : ∀ b, ¬ KernelData b → ¬ Below e.esp used b → r.mem b = e.mem b

/-- The saved words are on the stack, and nothing else changes but the flags. -/
theorem Saves.spec (hS : Saves save restore words n) (hn : 4 * n < 2 ^ 32) (e : Core Reg) :
    (save e).esp = e.esp - BitVec.ofNat 32 (4 * n) ∧ (save e).stack n = words e ∧
      (save e).cs = e.cs ∧ (save e).ss = e.ss ∧ (save e).ds = e.ds ∧ (save e).es = e.es ∧
      ∀ b, ¬ Below e.esp (4 * n) b → (save e).mem b = e.mem b := by
  obtain ⟨flags, hpush⟩ := hS.push e
  have hlen := hS.length e
  have hesp := Core.esp_pushAll { e with eflags := flags } (words e)
  have hstack := Core.stack_pushAll { e with eflags := flags } (words e) (n := 0) (by omega)
  rw [hlen] at hesp
  rw [hlen, Nat.add_zero] at hstack
  rw [hpush]
  refine ⟨hesp, hstack.trans (List.append_nil _), Core.cs_pushAll _ _, Core.ss_pushAll _ _,
    Core.ds_pushAll _ _, Core.es_pushAll _ _, fun b hb => ?_⟩
  refine Core.mem_pushAll { e with eflags := flags } (words e) (by omega) ?_
  rw [hlen, inSpan_iff_below hn]
  exact hb

/-- Bytes from a stack pointer on are not below it. -/
theorem not_below_of_inSpan {a b : Word} {k : ℕ} (hb : InSpan b a k) (hk : k + depth < 2 ^ 32) :
    ¬ Below a depth b := by
  unfold InSpan at hb
  rintro ⟨h1, h2⟩
  bv_omega

/-- **A stub** restores what it saved. -/
theorem stub_undone (hS : Saves save restore words n)
    (hH : ∀ i c r, H.run i c r → Convention KernelData depth c r) (hret : 4 ≤ depth)
    (hdepth : 4 * n + depth < 2 ^ 32) (hdata : ∀ b, Below e.esp (4 * n) b → ¬ KernelData b)
    (hstub : stub H T i save restore e c') :
    ∃ r, c' = iret T r ∧ Undone KernelData (4 * n + depth) e r := by
  obtain ⟨r, hrun, rfl⟩ := hstub
  obtain ⟨hesp, hstack, hcs, hss, hds, hes, hmem⟩ := hS.spec (by omega) e
  have hconv := hH i _ _ hrun
  have hback : ((save e).push (H.retAddr i)).esp + 4 = (save e).esp := by
    rw [Core.esp_push]
    bv_omega
  -- the function works on the stack below the saved words
  have hbelow : ∀ b, ¬ KernelData b → ¬ Below (save e).esp depth b → r.mem b = (save e).mem b := by
    intro b hb hnot
    rw [hconv.mem b hb (by rwa [hback])]
    apply Core.mem_push
    intro hin
    apply hnot
    unfold InSpan at hin
    unfold Below
    bv_omega
  have hresp : r.esp = (save e).esp := hconv.esp.trans hback
  have hwords : r.stack n = words e := by
    rw [← hstack, Core.stack, Core.stack, hresp]
    refine Memory.words_congr (by omega) fun b hb => hbelow b (hdata b ?_) ?_
    · rw [hesp, inSpan_iff_below (by omega)] at hb
      exact hb
    · exact not_below_of_inSpan hb (by omega)
  obtain ⟨flags, hrestore⟩ := hS.restore e r hwords
  refine ⟨restore r, rfl, ?_⟩
  rw [hrestore]
  constructor
  · rfl
  · show r.esp + BitVec.ofNat 32 (4 * n) = e.esp
    rw [hresp, hesp, BitVec.sub_add_cancel]
  · exact hconv.cs.trans hcs
  · exact hconv.ss.trans hss
  · exact hconv.ds.trans hds
  · exact hconv.es.trans hes
  · intro b hb hnot
    rw [← hmem b fun h => hnot (h.mono (by omega))]
    refine hbelow b hb fun h => hnot ?_
    rw [hesp] at h
    exact h.of_sub (by omega)

theorem Undone.mono {used used' : ℕ} (h : Undone KernelData used e r) (hle : used ≤ used') :
    Undone KernelData used' e r :=
  { h with mem := fun b hb hnot => h.mem b hb fun hin => hnot (hin.mono hle) }

/-- Each of the four stubs restores what it saved. -/
theorem handle_undone (hH : ∀ i c r, H.run i c r → Convention KernelData depth c r)
    (hret : 4 ≤ depth) (hdepth : 36 + depth < 2 ^ 32)
    (hdata : ∀ b, Below e.esp 36 b → ¬ KernelData b) (hi : i.handle H T e c') :
    ∃ r, c' = iret T r ∧ Undone KernelData (36 + depth) e r := by
  cases i with
  | pit =>
    obtain ⟨r, hr, hU⟩ := stub_undone saves_pit hH hret (by omega)
      (fun b hb => hdata b (hb.mono (by decide))) hi
    exact ⟨r, hr, hU.mono (by omega)⟩
  | keyboard => exact stub_undone saves_saveAll hH hret hdepth hdata hi
  | rtc => exact stub_undone saves_saveAll hH hret hdepth hdata hi
  | mouse => exact stub_undone saves_mouse hH hret hdepth hdata hi

/-! ## An interrupt -/

variable {S : Symbols}

theorem mem_idtGates (i : Irq) : (intrGate, i.vector, i.entry) ∈ idtGates := by
  cases i <;> decide

/-- Where the stack of an interrupt begins. -/
def stackTop (S : Symbols) (c : Core Reg) : Word := S.registers.entryTop c

/-- The kernel keeps its data apart from the frame of an interrupt at `c` and from the tables. -/
structure RoomFor (S : Symbols) (KernelData : Word → Prop) (depth : ℕ) (c : Core Reg) : Prop where
  frame : ∀ b, Below (stackTop S c) 56 b → ¬ KernelData b
  tables : ∀ b, S.InTables b → ¬ KernelData b ∧ ¬ Below (stackTop S c) (56 + depth) b

theorem frameWords_le (c : Core Reg) : frameWords c ≤ 5 := by
  unfold frameWords
  split_ifs <;> omega

theorem frameWords_pos (c : Core Reg) : 3 ≤ frameWords c := by
  unfold frameWords
  split_ifs <;> omega

/-- The data segment of user mode stays loaded. -/
theorem keepSegment_userDs {m : Memory} (h : Tabled S m) (level : BitVec 2) :
    keepSegment S.registers m level userDs = userDs := by
  have hds : S.registers.descriptor m userDs = Descriptor.ofWords 0x0000FFFF 0x00CFF200 :=
    h.segments (userDs, 0x00CFF2000000FFFF) (by decide)
  have hdpl : ∀ l : BitVec 2, ¬ (Descriptor.ofWords 0x0000FFFF 0x00CFF200).dpl < l := by decide
  rw [keepSegment, hds, if_neg fun h => hdpl level h.2]

theorem keepSegment_zero (T : TableRegisters) (m : Memory) (s : Selector) :
    keepSegment T m 0 s = s := by
  rw [keepSegment, if_neg]
  rintro ⟨-, hlt⟩
  bv_omega

/-- **An interrupt** gives the interrupted program back as it was, in user mode and in the kernel.
It has changed at most the kernel's data and the stack below its frame. -/
theorem irq_restores (htab : Tabled S c.mem)
    (hH : ∀ i c r, H.run i c r → Convention KernelData depth c r) (hret : 4 ≤ depth)
    (hdepth : 56 + depth < 2 ^ 32) (hroom : RoomFor S KernelData depth c)
    (hseg : c.cpl ≠ 0 → c.ds = userDs ∧ c.es = userDs) (ht : i.takes H S.registers c c') :
    c' = { c with mem := c'.mem } ∧
      ∀ b, ¬ KernelData b → ¬ Below (stackTop S c) (56 + depth) b → c'.mem b = c.mem b := by
  obtain ⟨e, he, hi⟩ := ht
  have hleads := htab.leads (mem_idtGates i)
    (show (intrGate : Word).extractLsb' 8 4 ≠ 0x5 by decide)
  have hsoft : false = true → ¬ (gateOf intrGate (S.entry i.entry)).dpl < c.cpl := fun h =>
    absurd h Bool.false_ne_true
  have hent := hleads.entered hsoft he
  have hwords := frameWords_le c
  have hwords' := frameWords_pos c
  -- the saved registers are below the frame of the processor
  have hlow : ∀ {n b}, n ≤ 36 + depth → Below e.esp n b →
      Below (stackTop S c) (4 * frameWords c + n) b := by
    intro n b hn hb
    rw [hent.esp] at hb
    exact hb.of_sub (by omega)
  obtain ⟨r, rfl, hU⟩ := handle_undone hH hret (by omega) (fun b hb =>
    hroom.frame b ((hlow (by omega) hb).mono (by omega))) hi
  have hmem : ∀ b, ¬ KernelData b → ¬ Below (stackTop S c) (56 + depth) b → r.mem b = c.mem b := by
    intro b hb hnot
    rw [hU.mem b hb fun h => hnot ((hlow le_rfl h).mono (by omega))]
    exact hent.mem b fun h => hnot (h.mono (by omega))
  have hframe : r.stack (frameWords c) = e.stack (frameWords c) := by
    rw [Core.stack, Core.stack, hU.esp]
    refine Memory.words_congr (by omega) fun b hb => hU.mem b (hroom.frame b ?_) ?_
    · rw [hent.esp, inSpan_iff_below (by omega)] at hb
      exact hb.mono (by omega)
    · exact not_below_of_inSpan hb (by omega)
  have htab' : Tabled S r.mem := htab.congr fun b hb => by
    obtain ⟨h1, h2⟩ := hroom.tables b hb
    exact hmem b h1 h2
  have hkeep : ∀ s ∈ [c.ds, c.es], keepSegment S.registers r.mem c.cpl s = s := by
    intro s hs
    by_cases hcpl : c.cpl = 0
    · rw [hcpl]
      exact keepSegment_zero _ _ _
    · obtain ⟨hds, hes⟩ := hseg hcpl
      have hs' : s = userDs := by
        rw [hds, hes] at hs
        simpa using hs
      rw [hs']
      exact keepSegment_userDs htab' _
  have hiret := iret_of_entered hleads hsoft he ⟨hU.esp, hU.cs, hU.ss, hframe⟩
    (hU.ds.trans hent.ds) (hU.es.trans hent.es) hkeep
  rw [hU.reg, hent.reg] at hiret
  rw [hiret]
  exact ⟨rfl, hmem⟩

/-! ## A program in user mode -/

/-- The two states differ at most in bytes that are not the program's. -/
structure Same (Own : Word → Prop) (c d : Core Reg) : Prop where
  rest : d = { c with mem := d.mem }
  mem : ∀ b, Own b → d.mem b = c.mem b

variable {Own : Word → Prop} {instr : Core Reg → Core Reg → Prop} {top : Word} {d : Core Reg}

theorem Same.rfl : Same Own c c := ⟨Eq.refl c, fun _ _ => Eq.refl _⟩

theorem Same.symm (h : Same Own c d) : Same Own d c := by
  refine ⟨?_, fun b hb => (h.mem b hb).symm⟩
  rw [h.rest]

theorem Same.trans (h : Same Own c d) (h' : Same Own d e) : Same Own c e := by
  refine ⟨?_, fun b hb => (h'.mem b hb).trans (h.mem b hb)⟩
  have heq := h'.rest
  rw [h.rest] at heq
  exact heq

/-- The instructions of a program in user mode: what they do depends on the registers and on the
program's own bytes, of the memory they change no others, and no segment register is loaded. -/
structure UserCode (Own : Word → Prop) (instr : Core Reg → Core Reg → Prop) : Prop where
  depends : ∀ c c' d, Same Own c d → instr c c' → ∃ d', instr d d' ∧ Same Own c' d'
  keeps : ∀ c c' b, instr c c' → ¬ Own b → c'.mem b = c.mem b
  segments : ∀ c c', instr c c' → c'.cs = c.cs ∧ c'.ds = c.ds ∧ c'.es = c.es

/-- The kernel's data, its stack below `top`, the tables with `tss.esp0` and the program's bytes are
apart. -/
structure Separate (S : Symbols) (KernelData Own : Word → Prop) (depth : ℕ) (top : Word) :
    Prop where
  frame : ∀ b, Below top 56 b → ¬ KernelData b
  tables : ∀ b, S.InTables b ∨ InSpan b (S.tss + 4) 4 →
    ¬ KernelData b ∧ ¬ Below top (56 + depth) b ∧ ¬ Own b
  own : ∀ b, Own b → ¬ KernelData b ∧ ¬ Below top (56 + depth) b

/-- The state of a program that the kernel has started. -/
structure InUserMode (S : Symbols) (top : Word) (c : Core Reg) : Prop where
  cpl : c.cpl = 3
  ds : c.ds = userDs
  es : c.es = userDs
  tabled : Tabled S c.mem
  esp0 : c.mem.load32 (S.tss + 4) = top

theorem InUserMode.stackTop (h : InUserMode S top c) : stackTop S c = top := by
  have hcpl : c.cpl ≠ 0 := by
    rw [h.cpl]
    decide
  rw [Interrupt.stackTop, TableRegisters.entryTop, if_neg hcpl, stackPointer_zero, h.esp0]

/-- The tables are found as long as their bytes stay. -/
theorem InUserMode.congr (h : InUserMode S top c) (hcs : c'.cs = c.cs) (hds : c'.ds = c.ds)
    (hes : c'.es = c.es)
    (hm : ∀ b, S.InTables b ∨ InSpan b (S.tss + 4) 4 → c'.mem b = c.mem b) :
    InUserMode S top c' := by
  refine ⟨?_, hds.trans h.ds, hes.trans h.es, h.tabled.congr fun b hb => hm b (.inl hb), ?_⟩
  · rw [Core.cpl, hcs]
    exact h.cpl
  · rw [← h.esp0]
    exact Memory.load32_congr fun i hi => hm _ (.inr (inSpan_add_ofNat hi))

/-- One interrupt is not seen. -/
theorem InUserMode.takes (h : InUserMode S top c) (hsep : Separate S KernelData Own depth top)
    (hH : ∀ i c r, H.run i c r → Convention KernelData depth c r) (hret : 4 ≤ depth)
    (hdepth : 56 + depth < 2 ^ 32) (ht : i.takes H S.registers c c') :
    Same Own c c' ∧ InUserMode S top c' := by
  have htop := h.stackTop
  have hroom : RoomFor S KernelData depth c := by
    constructor
    · rw [htop]
      exact hsep.frame
    · rw [htop]
      exact fun b hb => ⟨(hsep.tables b (.inl hb)).1, (hsep.tables b (.inl hb)).2.1⟩
  obtain ⟨heq, hmem⟩ := irq_restores h.tabled hH hret hdepth hroom (fun _ => ⟨h.ds, h.es⟩) ht
  rw [htop] at hmem
  refine ⟨⟨heq, fun b hb => hmem b (hsep.own b hb).1 (hsep.own b hb).2⟩, ?_⟩
  refine h.congr (by rw [heq]) (by rw [heq]) (by rw [heq]) fun b hb => ?_
  obtain ⟨h1, h2, -⟩ := hsep.tables b hb
  exact hmem b h1 h2

/-! ## A program after boot -/

/-- Handlers that count ticks at `0x430000`. -/
def sampleHandlers : Handlers where
  run _ c r := r = { c with
    esp := c.esp + 4, reg := fun _ => 0, mem := c.mem.store8 0x430000 (c.mem 0x430000 + 1) }
  retAddr _ := 0x422000

theorem convention_sampleHandlers (i : Irq) (c r : Core Reg) (h : sampleHandlers.run i c r) :
    Convention (fun b => b = 0x430000) 4 c r := by
  obtain rfl := h
  exact ⟨rfl, rfl, rfl, rfl, rfl, fun b hb _ => Memory.store8_of_ne _ _ hb⟩

/-- The program after `execute`. -/
def sampleProgram : Core Reg where
  reg _ := 0
  esp := 0x83FFFFC
  eip := 0x8048000
  eflags := 0x202
  cs := userCs
  ss := userDs
  ds := userDs
  es := userDs
  mem := initTables sampleSymbols sampleLoaded

theorem esp0_initTables (S : Symbols) (m : Memory) :
    (initTables S m).load32 (S.tss + 4) = 0x800000 := by
  have hkept : ∀ i < 4, initTables S m (S.tss + 4 + BitVec.ofNat 32 i)
      = initSegments S m (S.tss + 4 + BitVec.ofNat 32 i) := by
    intro i hi
    have hin : InSpan (S.tss + 4 + BitVec.ofNat 32 i) (S.tss + 4) 4 := inSpan_add_ofNat hi
    have htss : InSpan (S.tss + 4 + BitVec.ofNat 32 i) S.tss 104 :=
      inSpan_of_inSpan_add (by decide) (by decide) hin
    rw [initTables, idtInit_eq_foldl]
    exact foldl_storeGate_kept _ fun h => S.apart_idt_tss _ h htss
  rw [Memory.load32_congr hkept]
  exact Memory.load32_store32_self _ _ _

theorem inUserMode_sampleProgram : InUserMode sampleSymbols 0x800000 sampleProgram := by
  refine ⟨?_, rfl, rfl, tabled_initTables loaded_sampleLoaded, esp0_initTables _ _⟩
  show rpl userCs = 3
  decide

theorem tables_sample {b : Word}
    (hb : sampleSymbols.InTables b ∨ InSpan b (sampleSymbols.tss + 4) 4) :
    0x410000 ≤ b.toNat ∧ b.toNat < 0x413000 := by
  obtain (hb | hb | hb) | hb := hb
  · change InSpan b 0x410000 64 at hb
    unfold InSpan at hb
    bv_omega
  · change InSpan b 0x411000 2048 at hb
    unfold InSpan at hb
    bv_omega
  · change InSpan b (0x412000 + 8) 2 at hb
    unfold InSpan at hb
    bv_omega
  · change InSpan b (0x412000 + 4) 4 at hb
    unfold InSpan at hb
    bv_omega

end HieUnix.Interrupt
