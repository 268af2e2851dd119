import HieUnix.CallInterrupts

/-!
# System calls of a program

`INT $0x80` of a user program from end to end: the gate of vector 128, `handle_syscall` with the
interrupts that it takes, and its `iret`. The C functions are a parameter; they may change the
kernel's data, the stack below theirs and, as a service says, the program's own bytes.

A program that makes system calls and is interrupted, in its own code and in `handle_syscall`, runs
as on a machine on which a system call is one step and interrupts do not exist (`program_runs`). On
that machine the wrappers of `ece391syscall.S` are functions of C (`wrapper_returns`).
-/

namespace HieUnix.Interrupt

open X86 Function

/-! ## The machine -/

/-- `INT $0x80` is the next instruction, and the program's own. -/
def AtInt (Own : Word → Prop) (c : Core Reg) : Prop :=
  Own c.eip ∧ Own (c.eip + 1) ∧ c.mem c.eip = 0xCD ∧ c.mem (c.eip + 1) = 0x80

/-- The instruction behind `INT $0x80`. -/
def afterInt (c : Core Reg) : Core Reg := { c with eip := c.eip + 2 }

/-- A system call: `INT $0x80`, `handle_syscall` with the interrupts `irqs`, and its `iret`. -/
def sysCalls (H : Handlers) (F : HieUnix.Handlers) (T : TableRegisters) (c : Core Reg)
    (irqs : List Irq) (calls : List SysCall) (c' : Core Reg) : Prop :=
  ∃ e r, raise T true 128 (afterInt c) = .ok e ∧ handles H F T e irqs calls r ∧ c' = iret T r

/-! ## What a program sees -/

/-- What the calls do to a program's own bytes: the call, the memory before it and after it. -/
abbrev Service := SysCall → Memory → Memory → Prop

/-- It is about the program's own bytes only. -/
def Service.Local (V : Service) (Own : Word → Prop) : Prop :=
  ∀ k m m' n n', (∀ b, Own b → n b = m b) → (∀ b, Own b → n' b = m' b) → V k m m' → V k n n'

/-- The functions of the kernel, with the interrupts that they take, keep to the calling convention
and to the service. Beside the program's bytes they change the kernel's data and `deep` bytes of the
stack, of which their arguments and the return address are the first four words. -/
structure Serves (KernelData Own : Word → Prop) (deep : ℕ) (V : Service)
    (F : HieUnix.Handlers) : Prop where
  cdecl : ∀ i c, Cdecl c (F.run i c)
  mem : ∀ i c b, ¬ KernelData b → ¬ Own b → ¬ Below (c.esp + 16) deep b →
    (F.run i c).mem b = c.mem b
  service : ∀ i c, V (sysCall i c (F.run i c)) c.mem (F.run i c).mem

/-- The kernel's data, its stack below `top` with the nineteen words of a system call and the
fourteen of an interrupt, the tables with `tss.esp0` and the program's bytes are apart. -/
structure SeparateCalls (S : Symbols) (KernelData Own : Word → Prop) (deep : ℕ) (top : Word) :
    Prop where
  frame : ∀ b, Below top 132 b → ¬ KernelData b
  tables : ∀ b, S.InTables b ∨ InSpan b (S.tss + 4) 4 →
    ¬ KernelData b ∧ ¬ Below top (60 + deep) b ∧ ¬ Own b
  own : ∀ b, Own b → ¬ KernelData b ∧ ¬ Below top (60 + deep) b

/-- The call that the registers ask for. -/
def Asks (c : Core Reg) (k : SysCall) : Prop :=
  sysCallTable[(c.reg .eax - 1).toNat]? = some k.handler ∧ k.arg1 = c.reg .ebx ∧
    k.arg2 = c.reg .ecx ∧ k.arg3 = c.reg .edx

variable {S : Symbols} {KernelData Own : Word → Prop} {depth deep : ℕ} {V : Service}
  {c c' d e r s : Core Reg} {k : SysCall} {H : Handlers} {F : HieUnix.Handlers} {top : Word}
  {i : Handler} {irqs : List Irq} {calls : List SysCall}

theorem Asks.congr (h : Asks c k) (hreg : d.reg = c.reg) : Asks d k := by
  unfold Asks at h ⊢
  rwa [hreg]

theorem SeparateCalls.separate (h : SeparateCalls S KernelData Own deep top)
    (hle : 56 + depth ≤ 60 + deep) : Separate S KernelData Own depth top where
  frame b hb := h.frame b (hb.mono (by decide))
  tables b hb :=
    ⟨(h.tables b hb).1, fun h' => (h.tables b hb).2.1 (h'.mono hle), (h.tables b hb).2.2⟩
  own b hb := ⟨(h.own b hb).1, fun h' => (h.own b hb).2 (h'.mono hle)⟩

/-! ## What `handle_syscall` leaves -/

/-- From the entry `e` to the `iret` at `r`, `handle_syscall` keeps the words of the interrupt and
the registers but for `%eax`, and the memory is that of the function. -/
structure Served (KernelData Own : Word → Prop) (deep : ℕ) (top : Word) (V : Service)
    (e r : Core Reg) (calls : List SysCall) : Prop where
  reg : r.reg = update e.reg .eax (r.reg .eax)
  esp : r.esp = e.esp
  cs : r.cs = e.cs
  ss : r.ss = e.ss
  ds : r.ds = e.ds
  es : r.es = e.es
  stack : r.stack 5 = e.stack 5
  mem : ∀ b, ¬ KernelData b → ¬ Own b → ¬ Below top (60 + deep) b → r.mem b = e.mem b
  answer : (∃ k, calls = [k] ∧ Asks e k ∧ r.reg .eax = k.result ∧ V k e.mem r.mem) ∨
    (calls = [] ∧ (∀ k, ¬ Asks e k) ∧ r.reg .eax = e.reg .eax ∧ ∀ b, Own b → r.mem b = e.mem b)

/-- The machine at the entry of `handle_syscall`: the registers and the five words of the
interrupt. -/
def entryFrame (e : Core Reg) : StubFrame := ⟨e.reg, e.ds, e.es, e.stack 5⟩

/-- What the parts of `handle_syscall` share: it is in the kernel, and interrupts find the tables
and room on the stack. -/
structure InStub (S : Symbols) (KernelData Own : Word → Prop) (depth deep : ℕ) (top : Word)
    (H : Handlers) (e : Core Reg) : Prop where
  interruptible : Interruptible S KernelData depth (60 + deep) top H
  separate : SeparateCalls S KernelData Own deep top
  cpl : e.cpl = 0
  tabled : Tabled S e.mem
  esp : e.esp = top - BitVec.ofNat 32 20

/-- A number outside the table. -/
theorem served_invalid (hS : InStub S KernelData Own depth deep top H e)
    (hs : StubHolds KernelData (60 + deep) top e (entryFrame e).saved s)
    (hnum : s.reg .eax < 1 ∨ ¬ s.reg .eax < 11) (h : handlesInvalid H S.registers s irqs calls r) :
    Served KernelData Own deep top V e r calls := by
  obtain ⟨hst, rfl⟩ := h
  have hr := hs.steps hS.interruptible hS.cpl hS.tabled hst (n := 5) rfl
  rw [onFrameAll_invalidInstrs] at hr
  have heax : s.reg .eax = e.reg .eax := congrFun hs.reg .eax
  rw [heax] at hnum
  refine ⟨?_, ?_, hr.cs, hr.ss, hr.ds, hr.es, hr.stack, fun b hk _ hb => hr.mem b hk hb,
    .inr ⟨rfl, fun k hk => ?_, congrFun hr.reg .eax, fun b hb => ?_⟩⟩
  · rw [hr.reg]
    exact (update_eq_self _ _).symm
  · exact hr.esp.trans hS.esp.symm
  · have hnone : sysCallTable[(e.reg .eax - 1).toNat]? = none := by
      rw [List.getElem?_eq_none_iff]
      show 10 ≤ (e.reg .eax - 1).toNat
      bv_omega
    exact Option.some_ne_none _ (hk.1.symm.trans hnone)
  · exact hr.mem b (hS.separate.own b hb).1 (hS.separate.own b hb).2

/-- A number of the table: the function finds the registers as its arguments, and what it returns is
in `%eax`. -/
theorem served_valid (hS : InStub S KernelData Own depth deep top H e) (hV : V.Local Own)
    (hF : Serves KernelData Own deep V F)
    (hs : StubHolds KernelData (60 + deep) top e (entryFrame e).saved s)
    (h : handlesValid H F S.registers s irqs calls r) :
    Served KernelData Own deep top V e r calls := by
  obtain ⟨i, enter, back, irqs₁, irqs₂, hi, hcall, hrun, hret, -, rfl⟩ := h
  have hfits := hS.interruptible.fits
  have hE := hs.steps hS.interruptible hS.cpl hS.tabled hcall (n := 19) rfl
  rw [onFrameAll_callInstrs] at hE
  have hcdecl := hF.cdecl i (cpuOf enter)
  have hservice := hF.service i (cpuOf enter)
  have hkept := hF.mem i (cpuOf enter)
  obtain ⟨eip, eflags, rfl, -⟩ := hrun
  generalize F.run i (cpuOf enter) = x at hcdecl hservice hkept hret
  have hesp : enter.esp + 16 = top - BitVec.ofNat 32 60 := by
    rw [hE.esp]
    show top - 76 + 16 = top - 60
    bv_omega
  have hbelow : ∀ b, Below (enter.esp + 16) deep b → Below top (60 + deep) b := by
    intro b hb
    rw [hesp] at hb
    exact hb.of_sub hfits
  have hxmem : ∀ b, ¬ KernelData b → ¬ Own b → ¬ Below top (60 + deep) b →
      x.mem b = e.mem b := fun b hk ho hb =>
    (hkept b hk ho fun h => hb (hbelow b h)).trans (hE.mem b hk hb)
  -- what the stub finds when the function has returned
  have hstart : StubHolds KernelData (60 + deep) top (withCpu enter x)
      ⟨x.reg, x.ds, x.es, (withCpu enter x).stack 18⟩
      { withCpu enter x with eip := eip, eflags := eflags } := by
    have hxesp : x.esp = top - BitVec.ofNat 32 (4 * 18) := by
      rw [hcdecl.esp]
      show enter.esp + 4 = top - 72
      rw [hE.esp]
      show top - 76 + 4 = top - 72
      bv_omega
    have h : StubHolds KernelData (60 + deep) top (withCpu enter x)
        ⟨x.reg, x.ds, x.es, (withCpu enter x).stack 18⟩ (withCpu enter x) :=
      StubHolds.start hxesp (by decide)
    exact ⟨h.reg, h.ds, h.es, h.cs, h.ss, h.esp, h.few, h.stack, h.mem⟩
  have hcpl : (withCpu enter x).cpl = 0 := by
    show rpl enter.cs = 0
    rw [hE.cs]
    exact hS.cpl
  have htab : Tabled S (withCpu enter x).mem := hS.tabled.congr fun b hb => by
    obtain ⟨h1, h2, h3⟩ := hS.separate.tables b (.inl hb)
    exact hxmem b h1 h3 h2
  have hsaved : ((withCpu enter x).stack 18).drop 3 = (entryFrame e).saved.stack := by
    have hstack := congrArg (List.drop 4) hE.stack
    have hfour : x.esp + 4 + 4 + 4 = enter.esp + 4 + 4 + 4 + 4 := by
      rw [hcdecl.esp]
      rfl
    refine Eq.trans ?_ hstack
    show x.mem.words (x.esp + 4 + 4 + 4) 15 = enter.mem.words (enter.esp + 4 + 4 + 4 + 4) 15
    rw [hfour]
    refine Memory.words_congr (by decide) fun b hb => hcdecl.frame b ?_
    change InSpan b (enter.esp + 16) 60
    unfold InSpan at hb ⊢
    bv_omega
  have hr := hstart.steps hS.interruptible hcpl htab hret (n := 5) rfl
  rw [onFrameAll_returnInstrs hsaved] at hr
  have heax : r.reg .eax = x.reg .eax := by
    rw [hr.reg]
    show update e.reg .eax (x.reg .eax) .eax = x.reg .eax
    rw [update_self]
  have hargs : sysCall i (cpuOf enter) x
      = ⟨i, e.reg .ebx, e.reg .ecx, e.reg .edx, x.reg .eax⟩ := by
    have hstack := hE.stack
    simp only [Core.stack, Memory.words, List.length_cons, List.cons.injEq] at hstack
    obtain ⟨-, hebx, hecx, hedx, -⟩ := hstack
    have h8 : enter.esp + 4 + 4 = enter.esp + 8 := by bv_omega
    have h12 : enter.esp + 8 + 4 = enter.esp + 12 := by bv_omega
    rw [h8] at hecx hedx
    rw [h12] at hedx
    show SysCall.mk i (enter.mem.load32 (enter.esp + 4)) (enter.mem.load32 (enter.esp + 8))
      (enter.mem.load32 (enter.esp + 12)) (x.reg .eax) = _
    rw [hebx, hecx, hedx]
    rfl
  refine ⟨?_, hr.esp.trans hS.esp.symm, hr.cs.trans hE.cs, hr.ss.trans hE.ss, hr.ds, hr.es,
    hr.stack, fun b hk ho hb => (hr.mem b hk hb).trans (hxmem b hk ho hb),
    .inl ⟨_, rfl, ?_, ?_, ?_⟩⟩
  · rw [heax]
    exact hr.reg
  · show Asks e (sysCall i (cpuOf enter) x)
    rw [hargs]
    refine ⟨?_, rfl, rfl, rfl⟩
    have hnum : s.reg .eax = e.reg .eax := congrFun hs.reg .eax
    rw [← hnum]
    exact hi
  · exact heax
  · refine hV _ _ _ _ _ (fun b hb => ?_) (fun b hb => ?_) hservice
    · exact (hE.mem b (hS.separate.own b hb).1 (hS.separate.own b hb).2).symm
    · exact hr.mem b (hS.separate.own b hb).1 (hS.separate.own b hb).2

/-- **`handle_syscall`** dispatches on the number and gives the program's registers back, whatever
interrupts come. -/
theorem handles_served (hS : InStub S KernelData Own depth deep top H e) (hV : V.Local Own)
    (hF : Serves KernelData Own deep V F) (h : handles H F S.registers e irqs calls r) :
    Served KernelData Own deep top V e r calls := by
  obtain ⟨s, irqs₁, irqs₂, hsave, -, hrest⟩ := h
  have hstart : StubHolds KernelData (60 + deep) top e (entryFrame e) e :=
    StubHolds.start hS.esp (by decide)
  have hs := hstart.steps hS.interruptible hS.cpl hS.tabled hsave (n := 15) rfl
  rw [onFrameAll_saveInstrs] at hs
  by_cases h1 : s.reg .eax < 1
  · rw [if_pos h1] at hrest
    exact served_invalid hS hs (.inl h1) hrest
  · rw [if_neg h1] at hrest
    by_cases h11 : s.reg .eax < 11
    · rw [if_pos h11] at hrest
      exact served_valid hS hV hF hs hrest
    · rw [if_neg h11] at hrest
      exact served_invalid hS hs (.inr h11) hrest

/-! ## A system call -/

theorem mem_idtGates_handleSyscall : (systemGate, 128, Entry.handleSyscall) ∈ idtGates := by
  decide

/-- The gate of system calls may be used in user mode. -/
theorem InUserMode.gate (h : InUserMode S top c) :
    S.registers.Leads (afterInt c).mem 128 (gateOf systemGate (S.entry .handleSyscall)) ∧
      (true = true → ¬ (gateOf systemGate (S.entry .handleSyscall)).dpl < (afterInt c).cpl) ∧
      (afterInt c).cpl ≠ 0 := by
  have hcpl : (afterInt c).cpl = 3 := h.cpl
  have hdpl : (gateOf systemGate (S.entry .handleSyscall)).dpl = 3 :=
    show (systemGate : Word).extractLsb' 13 2 = 3 by decide
  rw [hcpl, hdpl]
  exact ⟨h.tabled.leads mem_idtGates_handleSyscall
    (show (systemGate : Word).extractLsb' 8 4 ≠ 0x5 by decide), fun _ => by decide, by decide⟩

/-- The gate leads to `handle_syscall`, with the registers of the program. -/
theorem InUserMode.entered (hmode : InUserMode S top c)
    (hI : Interruptible S KernelData depth (60 + deep) top H)
    (hsep : SeparateCalls S KernelData Own deep top)
    (he : raise S.registers true 128 (afterInt c) = .ok e) :
    Entered S.registers (afterInt c) e ∧ frameWords (afterInt c) = 5 ∧
      InStub S KernelData Own depth deep top H e ∧
      ∀ b, ¬ Below top (60 + deep) b → e.mem b = c.mem b := by
  obtain ⟨hleads, hsoft, hcpl⟩ := hmode.gate
  have hent := hleads.entered hsoft he
  have hwords : frameWords (afterInt c) = 5 := if_neg hcpl
  have htop : S.registers.entryTop (afterInt c) = top := by
    rw [TableRegisters.entryTop, if_neg hcpl, stackPointer_zero]
    exact hmode.esp0
  have hframe : ∀ b, ¬ Below top (60 + deep) b → e.mem b = c.mem b := by
    intro b hb
    refine hent.mem b fun h => hb ?_
    rw [hwords, htop] at h
    exact h.mono (by omega)
  refine ⟨hent, hwords, ⟨hI, hsep, hent.cpl, ?_, ?_⟩, hframe⟩
  · exact hmode.tabled.congr fun b hb => hframe b (hI.tables b hb).2
  · rw [hent.esp, hwords, htop]

/-- **A system call** gives the program back as it was, behind the instruction, with the result in
`%eax`. -/
theorem sysCalls_returns (hmode : InUserMode S top c)
    (hI : Interruptible S KernelData depth (60 + deep) top H)
    (hsep : SeparateCalls S KernelData Own deep top) (hV : V.Local Own)
    (hF : Serves KernelData Own deep V F) (ht : sysCalls H F S.registers c irqs calls c') :
    c' = { afterInt c with reg := update c.reg .eax (c'.reg .eax), mem := c'.mem } ∧
      (∀ b, ¬ KernelData b → ¬ Own b → ¬ Below top (60 + deep) b → c'.mem b = c.mem b) ∧
      ((∃ k, calls = [k] ∧ Asks c k ∧ c'.reg .eax = k.result ∧ V k c.mem c'.mem) ∨
        (calls = [] ∧ (∀ k, ¬ Asks c k) ∧ c'.reg .eax = c.reg .eax ∧
          ∀ b, Own b → c'.mem b = c.mem b)) := by
  obtain ⟨e, r, he, hr, rfl⟩ := ht
  obtain ⟨hleads, hsoft, -⟩ := hmode.gate
  obtain ⟨hent, hwords, hS, hframe⟩ := hmode.entered hI hsep he
  have hserved := handles_served hS hV hF hr
  have hereg : e.reg = c.reg := hent.reg
  have hmem : ∀ b, ¬ KernelData b → ¬ Own b → ¬ Below top (60 + deep) b → r.mem b = c.mem b :=
    fun b hk ho hb => (hserved.mem b hk ho hb).trans (hframe b hb)
  -- the kernel has not touched the tables, so that `iret` finds the segments of the program
  have htab : Tabled S r.mem := hmode.tabled.congr fun b hb => by
    obtain ⟨h1, h2, h3⟩ := hsep.tables b (.inl hb)
    exact hmem b h1 h3 h2
  have hkeep : ∀ s ∈ [c.ds, c.es], keepSegment S.registers r.mem c.cpl s = s := by
    intro s hs
    have hs' : s = userDs := by
      rw [hmode.ds, hmode.es] at hs
      simpa using hs
    rw [hs']
    exact keepSegment_userDs htab _
  -- `iret` pops the words that the gate has pushed
  have hreturned : Returned (afterInt c) e r := by
    refine ⟨hserved.esp, hserved.cs, hserved.ss, ?_⟩
    rw [hwords]
    exact hserved.stack
  have hiret := iret_of_entered hleads hsoft he hreturned (hserved.ds.trans hent.ds)
    (hserved.es.trans hent.es) hkeep
  have hreg : r.reg = update c.reg .eax (r.reg .eax) := by
    rw [← hereg]
    exact hserved.reg
  rw [hiret]
  refine ⟨?_, hmem, ?_⟩
  · show { afterInt c with reg := r.reg, mem := r.mem } = _
    rw [hreg]
    rfl
  · obtain ⟨k, hk, hask, hres, hv⟩ | ⟨hnil, hnone, heax, hsame⟩ := hserved.answer
    · refine .inl ⟨k, hk, hask.congr hereg.symm, hres, ?_⟩
      exact hV _ _ _ _ _ (fun b hb => (hframe b (hsep.own b hb).2).symm) (fun _ _ => rfl) hv
    · refine .inr ⟨hnil, fun k hk => hnone k (hk.congr hereg), ?_, fun b hb => ?_⟩
      · exact heax.trans (congrFun hereg .eax)
      · exact (hsame b hb).trans (hframe b (hsep.own b hb).2)

/-! ## A program with system calls -/

/-- What a program does. -/
inductive UserStep
  | instr
  | call (k : SysCall)
  | noCall
deriving DecidableEq, Repr

/-- The program on a machine on which a system call is one step: `%eax` becomes the result, and the
program's bytes are what the service says. A number that names no call has no effect. `halt` does
not return. -/
def serviceLTS (Own : Word → Prop) (V : Service) (instr : Core Reg → Core Reg → Prop) :
    LTS (Core Reg) UserStep where
  init _ := True
  step c o c' :=
    match o with
    | .instr => instr c c'
    | .call k => AtInt Own c ∧ Asks c k ∧ k.handler ≠ .halt ∧ V k c.mem c'.mem ∧
        c' = { afterInt c with reg := update c.reg .eax k.result, mem := c'.mem }
    | .noCall => AtInt Own c ∧ (∀ k, ¬ Asks c k) ∧ (∀ b, Own b → c'.mem b = c.mem b) ∧
        c' = { afterInt c with mem := c'.mem }

/-- What happens on the machine: the program does something, in a call with the interrupts that
`handle_syscall` takes, or an interrupt comes between its instructions. -/
inductive ProgramStep
  | instr
  | call (k : SysCall) (irqs : List Irq)
  | noCall (irqs : List Irq)
  | irq (i : Irq)
deriving DecidableEq, Repr

/-- What the program does of it. -/
def ProgramStep.toUser : ProgramStep → Option UserStep
  | instr => some .instr
  | call k _ => some (.call k)
  | noCall _ => some .noCall
  | irq _ => none

/-- The program on the machine, with interrupts. Each call may find other functions, those that `K`
allows. -/
def programLTS (S : Symbols) (H : Handlers) (K : HieUnix.Handlers → Prop) (Own : Word → Prop)
    (instr : Core Reg → Core Reg → Prop) : LTS (Core Reg) ProgramStep where
  init _ := True
  step c o c' :=
    match o with
    | .instr => instr c c'
    | .call k irqs => AtInt Own c ∧ k.handler ≠ .halt ∧
        ∃ F, K F ∧ sysCalls H F S.registers c irqs [k] c'
    | .noCall irqs => AtInt Own c ∧ ∃ F, K F ∧ sysCalls H F S.registers c irqs [] c'
    | .irq i => c.eflags.getLsbD 9 = true ∧ i.takes H S.registers c c'

theorem AtInt.congr (h : AtInt Own c) (hsame : Same Own c d) : AtInt Own d := by
  obtain ⟨h1, h2, h3, h4⟩ := h
  have heip : d.eip = c.eip := by rw [hsame.rest]
  rw [AtInt, heip]
  exact ⟨h1, h2, (hsame.mem _ h1).trans h3, (hsame.mem _ h2).trans h4⟩

/-- The parameters of a run: what the program, the drivers and the calls may do. The drivers use
`depth` bytes of the stack and the functions of the kernel `deep`, the interrupts in them and in
`handle_syscall` included. -/
structure Contract (S : Symbols) (KernelData Own : Word → Prop) (depth deep : ℕ) (top : Word)
    (H : Handlers) (K : HieUnix.Handlers → Prop) (V : Service)
    (instr : Core Reg → Core Reg → Prop) : Prop where
  code : UserCode Own instr
  irq : ∀ i c r, H.run i c r → Convention KernelData depth c r
  call : ∀ F, K F → Serves KernelData Own deep V F
  isLocal : V.Local Own
  separate : SeparateCalls S KernelData Own deep top
  ret : 4 ≤ depth
  room : 72 + depth ≤ deep
  fits : 60 + deep < 2 ^ 32

variable {K : HieUnix.Handlers → Prop} {instr : Core Reg → Core Reg → Prop} {o : ProgramStep}
  {u : UserStep}

theorem Contract.interruptible (h : Contract S KernelData Own depth deep top H K V instr) :
    Interruptible S KernelData depth (60 + deep) top H where
  irq := h.irq
  frame := h.separate.frame
  tables b hb := ⟨(h.separate.tables b (.inl hb)).1, (h.separate.tables b (.inl hb)).2.1⟩
  ret := h.ret
  room := by
    have hroom := h.room
    omega
  fits := h.fits

/-- A step of the program on the machine, and the state of the machine after it. -/
theorem Contract.user (h : Contract S KernelData Own depth deep top H K V instr)
    (hmode : InUserMode S top c) (hsame : Same Own d c)
    (hst : (programLTS S H K Own instr).step c o c') (hu : o.toUser = some u) :
    InUserMode S top c' ∧
      ∃ d', (serviceLTS Own V instr).step d u d' ∧ Same Own d' c' := by
  have hreg : d.reg = c.reg := by rw [hsame.rest]
  -- the state of the program after a call with the given registers
  have hafter : ∀ r : Reg → Word, c' = { afterInt c with reg := r, mem := c'.mem } →
      Same Own { afterInt d with reg := r, mem := c'.mem } c' := by
    intro r hc'
    refine ⟨?_, fun _ _ => rfl⟩
    rw [hc', hsame.rest]
    rfl
  have hback : ∀ r : Reg → Word, c' = { afterInt c with reg := r, mem := c'.mem } →
      (∀ b, ¬ KernelData b → ¬ Own b → ¬ Below top (60 + deep) b → c'.mem b = c.mem b) →
      InUserMode S top c' := by
    intro r hc' hmem
    refine hmode.congr (by rw [hc']; rfl) (by rw [hc']; rfl) (by rw [hc']; rfl) fun b hb => ?_
    obtain ⟨h1, h2, h3⟩ := h.separate.tables b hb
    exact hmem b h1 h3 h2
  cases o with
  | instr =>
    obtain rfl := Option.some.inj hu
    obtain ⟨d', hd', hsame'⟩ := h.code.depends _ _ _ hsame.symm hst
    obtain ⟨hcs, hds, hes⟩ := h.code.segments _ _ hst
    refine ⟨hmode.congr hcs hds hes fun b hb => ?_, d', hd', hsame'.symm⟩
    exact h.code.keeps _ _ b hst (h.separate.tables b hb).2.2
  | call k irqs =>
    obtain rfl := Option.some.inj hu
    obtain ⟨hint, hhalt, F, hF, ht⟩ := hst
    obtain ⟨hc', hmem, hanswer⟩ := sysCalls_returns hmode h.interruptible h.separate h.isLocal
      (h.call F hF) ht
    refine ⟨hback _ hc' hmem, _, ?_, hafter _ hc'⟩
    obtain ⟨k', hk', hask, hres, hv⟩ | ⟨hnil, -⟩ := hanswer
    · obtain rfl : k = k' := by simpa using hk'
      refine ⟨hint.congr hsame.symm, hask.congr hreg, hhalt, ?_, ?_⟩
      · exact h.isLocal _ _ _ _ _ (fun b hb => (hsame.mem b hb).symm) (fun _ _ => rfl) hv
      · rw [hres, hreg]
    · exact absurd hnil (List.cons_ne_nil _ _)
  | noCall irqs =>
    obtain rfl := Option.some.inj hu
    obtain ⟨hint, F, hF, ht⟩ := hst
    obtain ⟨hc', hmem, hanswer⟩ := sysCalls_returns hmode h.interruptible h.separate h.isLocal
      (h.call F hF) ht
    refine ⟨hback _ hc' hmem, _, ?_, hafter _ hc'⟩
    obtain ⟨k', hk', -⟩ | ⟨-, hnone, heax, hkept⟩ := hanswer
    · exact absurd hk'.symm (List.cons_ne_nil _ _)
    · refine ⟨hint.congr hsame.symm, fun k hk => hnone k (hk.congr hreg.symm), fun b hb => ?_, ?_⟩
      · exact (hkept b hb).trans (hsame.mem b hb)
      · rw [heax, update_eq_self, ← hreg]
        rfl
  | irq i => exact absurd hu (Option.some_ne_none u).symm

/-- An interrupt is not a step of the program. -/
theorem Contract.irq_unseen (h : Contract S KernelData Own depth deep top H K V instr) {i : Irq}
    (hmode : InUserMode S top c) (hsame : Same Own d c)
    (hst : (programLTS S H K Own instr).step c (.irq i) c') :
    InUserMode S top c' ∧ Same Own d c' := by
  have hroom := h.room
  have hfits := h.fits
  obtain ⟨-, ht⟩ := hst
  have hle : 56 + depth ≤ 60 + deep := by omega
  obtain ⟨hsame', hmode'⟩ := hmode.takes (h.separate.separate hle) h.irq h.ret (by omega) ht
  exact ⟨hmode', hsame.trans hsame'⟩

/-- A run of the program on the machine, from any state that the program cannot tell from it. -/
theorem Contract.run (h : Contract S KernelData Own depth deep top H K V instr)
    {os : List ProgramStep} (hmode : InUserMode S top c) (hsame : Same Own d c)
    (hr : (programLTS S H K Own instr).Run c os c') :
    InUserMode S top c' ∧
      ∃ d', (serviceLTS Own V instr).Run d (os.filterMap ProgramStep.toUser) d' ∧
        Same Own d' c' := by
  induction hr generalizing d with
  | nil c => exact ⟨hmode, d, .nil d, hsame⟩
  | @cons c c₁ c' o os hst hr ih =>
    cases ho : o.toUser with
    | some u =>
      obtain ⟨hmode₁, d₁, hd₁, hsame₁⟩ := h.user hmode hsame hst ho
      obtain ⟨hmode', d', hrun, hsame'⟩ := ih hmode₁ hsame₁
      rw [List.filterMap_cons_some ho]
      exact ⟨hmode', d', .cons hd₁ hrun, hsame'⟩
    | none =>
      obtain ⟨i, rfl⟩ : ∃ i, o = .irq i := by
        cases o with
        | irq i => exact ⟨i, rfl⟩
        | _ => exact absurd ho (Option.some_ne_none _)
      obtain ⟨hmode₁, hsame₁⟩ := h.irq_unseen hmode hsame hst
      rw [List.filterMap_cons_none ho]
      exact ih hmode₁ hsame₁

/-- **Programs run on their services.** A program that makes system calls while interrupts come
runs as on a machine on which each call is one step and interrupts do not exist. -/
theorem program_runs (h : Contract S KernelData Own depth deep top H K V instr)
    {os : List ProgramStep} (hmode : InUserMode S top c)
    (hr : (programLTS S H K Own instr).Run c os c') :
    ∃ d, (serviceLTS Own V instr).Run c (os.filterMap ProgramStep.toUser) d ∧ Same Own d c' :=
  (h.run hmode .rfl hr).2

/-! ## The wrappers -/

/-- The numbers of `ece391sysnum.h`. -/
def sysNum : Handler → Word
  | .halt => 1
  | .execute => 2
  | .read => 3
  | .write => 4
  | .open => 5
  | .close => 6
  | .getargs => 7
  | .vidmap => 8
  | .setHandler => 9
  | .sigreturn => 10

/-- Kernel and library have the same numbers. -/
theorem sysCallTable_sysNum (i : Handler) : sysCallTable[(sysNum i - 1).toNat]? = some i := by
  cases i <;> decide

/-- The word at `a` is the program's own. -/
def OwnWord (Own : Word → Prop) (a : Word) : Prop := ∀ b, InSpan b a 4 → Own b

/-- `movl off(%esp), r`. -/
def movlStack (c : Core Reg) (off : Word) (r : Reg) : Core Reg :=
  { c with reg := update c.reg r (c.mem.load32 (c.esp + off)) }

/-- The instruction is `n` bytes long. -/
def skip (c : Core Reg) (n : Word) : Core Reg := { c with eip := c.eip + n }

/-- `ret`. -/
def ret (c : Core Reg) : Core Reg := { c with eip := c.top, esp := c.esp + 4 }

/-- `DO_CALL(name, number)`, but for `INT $0x80`, by the offset of the instruction: the word of the
stack that it reads or writes, and what it does. -/
def doCallInstr (number : Word) (off : ℕ) (c : Core Reg) : Option (Option Word × Core Reg) :=
  match off with
  | 0 => some (some (c.esp - 4), skip (pushl c .ebx) 1)
  | 1 => some (none, skip { c with reg := update c.reg .eax number } 5)
  | 6 => some (some (c.esp + 8), skip (movlStack c 8 .ebx) 4)
  | 10 => some (some (c.esp + 12), skip (movlStack c 12 .ecx) 4)
  | 14 => some (some (c.esp + 16), skip (movlStack c 16 .edx) 4)
  | 20 => some (some c.esp, skip (popl c .ebx) 1)
  | 21 => some (some c.esp, ret c)
  | _ => none

/-- The wrapper at `base`. A word that is not the program's faults. -/
def doCall (Own : Word → Prop) (base number : Word) (c c' : Core Reg) : Prop :=
  ∃ w, doCallInstr number (c.eip - base).toNat c = some (w, c') ∧ ∀ a ∈ w, OwnWord Own a

variable {base number : Word} {off : ℕ} {w : Option Word}

theorem load32_ownWord {a : Word} {m n : Memory} (h : OwnWord Own a)
    (hm : ∀ b, Own b → n b = m b) : n.load32 a = m.load32 a :=
  Memory.load32_congr fun _ hi => hm _ (h _ (inSpan_add_ofNat hi))

/-- An instruction does the same in a memory with the same bytes of the program. -/
theorem doCallInstr_congr {n : Memory} (h : doCallInstr number off c = some (w, c'))
    (hown : ∀ a ∈ w, OwnWord Own a) (hn : ∀ b, Own b → n b = c.mem b) :
    ∃ n', doCallInstr number off { c with mem := n } = some (w, { c' with mem := n' }) ∧
      ∀ b, Own b → n' b = c'.mem b := by
  unfold doCallInstr at h
  split at h
  case h_1 =>
    obtain ⟨rfl, rfl⟩ := Prod.mk.inj (Option.some.inj h)
    exact ⟨_, rfl, fun b hb => Memory.store32_congr _ (hn b hb)⟩
  case h_2 =>
    obtain ⟨rfl, rfl⟩ := Prod.mk.inj (Option.some.inj h)
    exact ⟨n, rfl, hn⟩
  case h_8 => exact absurd h (by simp)
  all_goals
    obtain ⟨rfl, rfl⟩ := Prod.mk.inj (Option.some.inj h)
    refine ⟨n, ?_, hn⟩
    have hload := load32_ownWord (hown _ rfl) hn
    simp only [doCallInstr, skip, movlStack, popl, ret, Core.top, hload]

/-- Of the memory it changes the word it writes, and no segment register. -/
theorem doCallInstr_kept (h : doCallInstr number off c = some (w, c')) :
    (∀ b, (∀ a ∈ w, ¬ InSpan b a 4) → c'.mem b = c.mem b) ∧ c'.cs = c.cs ∧ c'.ds = c.ds ∧
      c'.es = c.es := by
  unfold doCallInstr at h
  split at h
  case h_1 =>
    obtain ⟨rfl, rfl⟩ := Prod.mk.inj (Option.some.inj h)
    exact ⟨fun b hb => Memory.store32_of_not_inSpan _ _ (hb _ rfl), rfl, rfl, rfl⟩
  case h_8 => exact absurd h (by simp)
  all_goals
    obtain ⟨rfl, rfl⟩ := Prod.mk.inj (Option.some.inj h)
    exact ⟨fun _ _ => rfl, rfl, rfl, rfl⟩

/-- The wrappers are code of a program. -/
theorem userCode_doCall : UserCode Own (doCall Own base number) := by
  refine ⟨fun c c' d hsame ⟨w, hst, hown⟩ => ?_, fun c c' b ⟨w, hst, hown⟩ hb => ?_,
    fun c c' ⟨w, hst, hown⟩ => (doCallInstr_kept hst).2⟩
  · obtain ⟨n', hst', hn'⟩ := doCallInstr_congr hst hown hsame.mem
    have hd : d = { c with mem := d.mem } := hsame.rest
    rw [← hd] at hst'
    refine ⟨{ c' with mem := n' }, ⟨w, ?_, hown⟩, rfl, hn'⟩
    have heip : d.eip = c.eip := by rw [hd]
    rw [heip]
    exact hst'
  · exact (doCallInstr_kept hst).1 b fun a ha h => hb (hown a ha b h)

theorem ownWord_some {a : Word} (h : OwnWord Own a) : ∀ a' ∈ some a, OwnWord Own a' := by
  intro a' ha
  rwa [← Option.mem_some_iff.mp ha]

theorem offset_eq (heip : c.eip = base + BitVec.ofNat 32 off) (hoff : off < 2 ^ 32) :
    (c.eip - base).toNat = off := by
  rw [heip, BitVec.add_comm, BitVec.add_sub_cancel, BitVec.toNat_ofNat, Nat.mod_eq_of_lt hoff]

/-- The instruction at an offset. -/
theorem doCall_at (h : doCall Own base number c c') (heip : c.eip = base + BitVec.ofNat 32 off)
    (hoff : off < 2 ^ 32) : ∃ w, doCallInstr number off c = some (w, c') := by
  obtain ⟨w, hw, -⟩ := h
  rw [offset_eq heip hoff] at hw
  exact ⟨w, hw⟩

theorem doCall_of_instr {n : ℕ} (h : doCallInstr number n c = some (w, c'))
    (heip : c.eip = base + BitVec.ofNat 32 n) (hn : n < 2 ^ 32)
    (hown : ∀ a ∈ w, OwnWord Own a) : doCall Own base number c c' := by
  refine ⟨w, ?_, hown⟩
  rw [offset_eq heip hn]
  exact h

/-- The registers at the call: the arguments are the words above the return address. -/
theorem doCall_arguments {d₁ d₂ d₃ d₄ d₅ : Core Reg} (heip : c.eip = base)
    (h1 : doCall Own base number c d₁) (h2 : doCall Own base number d₁ d₂)
    (h3 : doCall Own base number d₂ d₃) (h4 : doCall Own base number d₃ d₄)
    (h5 : doCall Own base number d₄ d₅) :
    d₅ = { c with
      reg := update (update (update (update c.reg .eax number)
        .ebx (c.mem.load32 (c.esp + 4))) .ecx (c.mem.load32 (c.esp + 8)))
        .edx (c.mem.load32 (c.esp + 12))
      esp := c.esp - 4
      eip := base + 18
      mem := c.mem.store32 (c.esp - 4) (c.reg .ebx) } := by
  -- the word pushed is below the arguments
  have hload : ∀ j : Word, 4 ≤ j.toNat → j.toNat < 20 →
      (c.mem.store32 (c.esp - 4) (c.reg .ebx)).load32 (c.esp - 4 + j)
        = c.mem.load32 (c.esp - 4 + j) := by
    intro j h4 h20
    exact Memory.load32_store32_of_disjoint _ _ (by bv_omega) (by bv_omega)
  have h8 : c.esp - 4 + 8 = c.esp + 4 := by bv_omega
  have h12 : c.esp - 4 + 12 = c.esp + 8 := by bv_omega
  have h16 : c.esp - 4 + 16 = c.esp + 12 := by bv_omega
  have hebx := hload 8 (by decide) (by decide)
  have hecx := hload 12 (by decide) (by decide)
  have hedx := hload 16 (by decide) (by decide)
  rw [h8] at hebx
  rw [h12] at hecx
  rw [h16] at hedx
  obtain ⟨w, h1⟩ := doCall_at h1 (heip.trans (BitVec.add_zero _).symm) (by decide)
  obtain rfl := (Prod.mk.inj (Option.some.inj h1)).2
  have heip1 : c.eip + 1 = base + BitVec.ofNat 32 1 := by
    rw [heip]
    rfl
  obtain ⟨w, h2⟩ := doCall_at h2 heip1 (by decide)
  obtain rfl := (Prod.mk.inj (Option.some.inj h2)).2
  have heip6 : c.eip + 1 + 5 = base + BitVec.ofNat 32 6 := by
    rw [heip]
    bv_omega
  obtain ⟨w, h3⟩ := doCall_at h3 heip6 (by decide)
  obtain rfl := (Prod.mk.inj (Option.some.inj h3)).2
  have heip10 : c.eip + 1 + 5 + 4 = base + BitVec.ofNat 32 10 := by
    rw [heip]
    bv_omega
  obtain ⟨w, h4⟩ := doCall_at h4 heip10 (by decide)
  obtain rfl := (Prod.mk.inj (Option.some.inj h4)).2
  have heip14 : c.eip + 1 + 5 + 4 + 4 = base + BitVec.ofNat 32 14 := by
    rw [heip]
    bv_omega
  obtain ⟨w, h5⟩ := doCall_at h5 heip14 (by decide)
  obtain rfl := (Prod.mk.inj (Option.some.inj h5)).2
  have heip18 : c.eip + 1 + 5 + 4 + 4 + 4 = base + 18 := by
    rw [heip]
    bv_omega
  rw [← hebx, ← hecx, ← hedx, ← heip18, ← h8, ← h12, ← h16]
  rfl

/-- **A wrapper** is a function of C: it calls the function of its name in the kernel on the three
arguments of its caller and returns the result. It keeps the stack pointer and all registers but
`%eax`, `%ecx` and `%edx`, whatever interrupts come between its instructions and in the call. The
service has to leave the word pushed and the return address. -/
theorem wrapper_returns
    (h : Contract S KernelData Own depth deep top H K V (doCall Own base (sysNum i)))
    (hmode : InUserMode S top c) (heip : c.eip = base)
    (hkept : ∀ m m' b, V k m m' → InSpan b (c.esp - 4) 8 → m' b = m b)
    {os : List ProgramStep}
    (hos : os.filterMap ProgramStep.toUser =
      [.instr, .instr, .instr, .instr, .instr, .call k, .instr, .instr])
    (hr : (programLTS S H K Own (doCall Own base (sysNum i))).Run c os c') :
    k.handler = i ∧ k.arg1 = c.mem.load32 (c.esp + 4) ∧ k.arg2 = c.mem.load32 (c.esp + 8) ∧
      k.arg3 = c.mem.load32 (c.esp + 12) ∧
      V k (c.mem.store32 (c.esp - 4) (c.reg .ebx)) c'.mem ∧
      c' = { c with
        reg := update (update (update c.reg .eax k.result) .ecx k.arg2) .edx k.arg3
        esp := c.esp + 4
        eip := c.mem.load32 c.esp
        mem := c'.mem } := by
  obtain ⟨-, d, hrun, hsame⟩ := h.run hmode .rfl hr
  rw [hos] at hrun
  obtain _ | ⟨h1, _ | ⟨h2, _ | ⟨h3, _ | ⟨h4, _ | ⟨h5, _ | ⟨h6, _ | ⟨h7, _ | ⟨h8, _ | _⟩⟩⟩⟩⟩⟩⟩⟩ := hrun
  rename_i d₁ d₂ d₃ d₄ d₅ d₆ d₇
  have hd₅ := doCall_arguments heip h1 h2 h3 h4 h5
  obtain ⟨-, hask, -, hv, hd₆⟩ := h6
  obtain ⟨hhandler, harg1, harg2, harg3⟩ := hask
  rw [hd₅] at hhandler harg1 harg2 harg3 hv hd₆
  have hi : k.handler = i := Option.some.inj (hhandler.symm.trans (sysCallTable_sysNum i))
  generalize d₆.mem = n at hv hd₆
  subst hd₆
  -- the word pushed and the return address are where they were
  have hstack : ∀ j : Word, j.toNat < 5 → n.load32 (c.esp - 4 + j)
      = (c.mem.store32 (c.esp - 4) (c.reg .ebx)).load32 (c.esp - 4 + j) := by
    intro j hj
    refine Memory.load32_congr fun t ht => hkept _ _ _ hv ?_
    have ht' : (BitVec.ofNat 32 t).toNat = t := by
      rw [BitVec.toNat_ofNat, Nat.mod_eq_of_lt (by omega)]
    unfold InSpan
    bv_omega
  have hzero : c.esp - 4 + 0 = c.esp - 4 := BitVec.add_zero _
  have hfour : c.esp - 4 + 4 = c.esp := BitVec.sub_add_cancel _ _
  have hebx : n.load32 (c.esp - 4) = c.reg .ebx := by
    have h0 := hstack 0 (by decide)
    rwa [hzero, Memory.load32_store32_self] at h0
  have hret : n.load32 (c.esp - 4 + 4) = c.mem.load32 c.esp := by
    rw [hstack 4 (by decide), hfour]
    exact Memory.load32_store32_of_disjoint _ _ (by bv_omega) (by bv_omega)
  have heip20 : base + 18 + 2 = base + BitVec.ofNat 32 20 := by bv_omega
  obtain ⟨w, h7⟩ := doCall_at h7 heip20 (by decide)
  obtain rfl := (Prod.mk.inj (Option.some.inj h7)).2
  have heip21 : base + 18 + 2 + 1 = base + BitVec.ofNat 32 21 := by bv_omega
  obtain ⟨w, h8⟩ := doCall_at h8 heip21 (by decide)
  obtain rfl := (Prod.mk.inj (Option.some.inj h8)).2
  refine ⟨hi, harg1, harg2, harg3, h.isLocal _ _ _ _ _ (fun _ _ => rfl) hsame.mem hv, ?_⟩
  have hreg : update (update (update (update (update (update c.reg .eax (sysNum i))
      .ebx (c.mem.load32 (c.esp + 4))) .ecx (c.mem.load32 (c.esp + 8)))
      .edx (c.mem.load32 (c.esp + 12))) .eax k.result) .ebx (n.load32 (c.esp - 4))
      = update (update (update c.reg .eax k.result) .ecx k.arg2) .edx k.arg3 := by
    rw [hebx, harg2, harg3]
    funext r
    cases r <;> rfl
  have hesp : c.esp - 4 + 4 + 4 = c.esp + 4 := by rw [hfour]
  rw [hsame.rest, ← hreg, ← hesp, ← hret]
  rfl

/-- `INT $0x80` enters the kernel and comes back, with the interrupts that come first. -/
theorem InUserMode.exists_sysCalls (hmode : InUserMode S top c)
    (hI : Interruptible S KernelData depth (60 + deep) top H)
    (hsep : SeparateCalls S KernelData Own deep top) (F : HieUnix.Handlers)
    (heax : c.reg .eax = sysNum i)
    (hirqs : ∀ e, raise S.registers true 128 (afterInt c) = .ok e →
      ∃ e', Steps H S.registers [] irqs e e') :
    ∃ k c', k.handler = i ∧ sysCalls H F S.registers c irqs [k] c' := by
  obtain ⟨hleads, hsoft, hcpl⟩ := hmode.gate
  have hraise := hleads.raise_inner hsoft hcpl
  generalize jump _ _ _ = e at hraise
  obtain ⟨hent, -, hS, -⟩ := hmode.entered hI hsep hraise
  obtain ⟨e', hsteps⟩ := hirqs e hraise
  have hstart : StubHolds KernelData (60 + deep) top e (entryFrame e) e :=
    StubHolds.start hS.esp (by decide)
  have he' := hstart.steps hI hS.cpl hS.tabled hsteps (n := 5) rfl
  have hereg : (cpuOf e').reg .eax = sysNum i := by
    rw [← heax]
    exact (congrFun he'.reg .eax).trans (congrFun hent.reg .eax)
  have hvalid : ValidCall (cpuOf e') := by
    rw [ValidCall, hereg]
    cases i <;> decide
  have hnum : sysCallTable[((cpuOf e').reg .eax - 1).toNat]? = some i := by
    rw [hereg]
    exact sysCallTable_sysNum i
  obtain ⟨r, hr, -⟩ := exists_handles H S.registers
    (handleSyscall_of_validCall (H := F) hvalid hnum)
  have hr' := hr.interrupted hsteps
  rw [List.append_nil] at hr'
  exact ⟨_, _, rfl, e, r, hraise, hr', rfl⟩

/-- The wrapper can run: its instructions and its stack are the program's own, and the call
returns. -/
theorem wrapper_runs
    (h : Contract S KernelData Own depth deep top H K V (doCall Own base (sysNum i)))
    (hmode : InUserMode S top c) (heip : c.eip = base) {F : HieUnix.Handlers} (hF : K F)
    (hi : i ≠ .halt) (hint : AtInt Own { c with eip := base + 18 })
    (hstack : ∀ b, InSpan b (c.esp - 4) 24 → Own b)
    (hcode : ¬ InSpan (base + 18) (c.esp - 4) 4 ∧ ¬ InSpan (base + 18 + 1) (c.esp - 4) 4)
    (hirqs : ∀ d e, InUserMode S top d → d.eflags = c.eflags →
      raise S.registers true 128 (afterInt d) = .ok e → ∃ e', Steps H S.registers [] irqs e e') :
    ∃ k c', (programLTS S H K Own (doCall Own base (sysNum i))).Run c
      [.instr, .instr, .instr, .instr, .instr, .call k irqs, .instr, .instr] c' := by
  have hown : ∀ j : Word, j.toNat ≤ 20 → OwnWord Own (c.esp - 4 + j) := by
    intro j hj b hb
    apply hstack
    unfold InSpan at hb ⊢
    bv_omega
  have hzero : c.esp - 4 + 0 = c.esp - 4 := BitVec.add_zero _
  have h0 : OwnWord Own (c.esp - 4) := hzero ▸ hown 0 (by decide)
  have heip0 : c.eip = base + BitVec.ofNat 32 0 := heip.trans (BitVec.add_zero _).symm
  have heip1 : c.eip + 1 = base + BitVec.ofNat 32 1 := by
    rw [heip]
    rfl
  have heip6 : c.eip + 1 + 5 = base + BitVec.ofNat 32 6 := by
    rw [heip]
    bv_omega
  have heip10 : c.eip + 1 + 5 + 4 = base + BitVec.ofNat 32 10 := by
    rw [heip]
    bv_omega
  have heip14 : c.eip + 1 + 5 + 4 + 4 = base + BitVec.ofNat 32 14 := by
    rw [heip]
    bv_omega
  obtain ⟨d₁, h1, hd₁⟩ : ∃ d, doCall Own base (sysNum i) c d ∧ d = skip (pushl c .ebx) 1 :=
    ⟨_, doCall_of_instr rfl heip0 (by decide) (ownWord_some h0), rfl⟩
  obtain ⟨d₂, h2, hd₂⟩ : ∃ d, doCall Own base (sysNum i) d₁ d ∧
      d = skip { d₁ with reg := update d₁.reg .eax (sysNum i) } 5 :=
    ⟨_, doCall_of_instr (n := 1) rfl (hd₁ ▸ heip1) (by decide) (by rintro a ⟨⟩), rfl⟩
  obtain ⟨d₃, h3, hd₃⟩ : ∃ d, doCall Own base (sysNum i) d₂ d ∧ d = skip (movlStack d₂ 8 .ebx) 4 :=
    ⟨_, doCall_of_instr (n := 6) rfl (by rw [hd₂, hd₁]; exact heip6) (by decide)
      (by rw [hd₂, hd₁]; exact ownWord_some (hown 8 (by decide))), rfl⟩
  obtain ⟨d₄, h4, hd₄⟩ : ∃ d, doCall Own base (sysNum i) d₃ d ∧ d = skip (movlStack d₃ 12 .ecx) 4 :=
    ⟨_, doCall_of_instr (n := 10) rfl (by rw [hd₃, hd₂, hd₁]; exact heip10) (by decide)
      (by rw [hd₃, hd₂, hd₁]; exact ownWord_some (hown 12 (by decide))), rfl⟩
  obtain ⟨d₅, h5⟩ : ∃ d, doCall Own base (sysNum i) d₄ d :=
    ⟨_, doCall_of_instr (n := 14) rfl (by rw [hd₄, hd₃, hd₂, hd₁]; exact heip14) (by decide)
      (by rw [hd₄, hd₃, hd₂, hd₁]; exact ownWord_some (hown 16 (by decide)))⟩
  have hd₅ := doCall_arguments heip h1 h2 h3 h4 h5
  -- each of the five keeps user mode
  have hstep : ∀ {d d' : Core Reg}, InUserMode S top d → doCall Own base (sysNum i) d d' →
      InUserMode S top d' := fun hm hd => (h.user hm .rfl (o := .instr) hd rfl).1
  have hmode₅ := hstep (hstep (hstep (hstep (hstep hmode h1) h2) h3) h4) h5
  have hint₅ : AtInt Own d₅ := by
    obtain ⟨hown18, hown19, hbyte18, hbyte19⟩ := hint
    rw [hd₅]
    exact ⟨hown18, hown19, (Memory.store32_of_not_inSpan _ _ hcode.1).trans hbyte18,
      (Memory.store32_of_not_inSpan _ _ hcode.2).trans hbyte19⟩
  have hflags : d₅.eflags = c.eflags := by rw [hd₅]
  obtain ⟨k, d₆, hk, ht⟩ := hmode₅.exists_sysCalls h.interruptible h.separate F (i := i)
    (by rw [hd₅]; rfl) (hirqs d₅ · hmode₅ hflags)
  obtain ⟨hd₆, -⟩ := sysCalls_returns hmode₅ h.interruptible h.separate h.isLocal (h.call F hF) ht
  rw [hd₅] at hd₆
  have heip20 : d₆.eip = base + BitVec.ofNat 32 20 := by
    rw [hd₆]
    show base + 18 + 2 = base + 20
    bv_omega
  have hesp : d₆.esp = c.esp - 4 := by
    rw [hd₆]
    rfl
  have heip21 : d₆.eip + 1 = base + BitVec.ofNat 32 21 := by
    rw [heip20]
    bv_omega
  have h7 : doCall Own base (sysNum i) d₆ (skip (popl d₆ .ebx) 1) :=
    doCall_of_instr rfl heip20 (by decide) (ownWord_some (hesp ▸ h0))
  have h8 : doCall Own base (sysNum i) (skip (popl d₆ .ebx) 1) (ret (skip (popl d₆ .ebx) 1)) :=
    doCall_of_instr rfl heip21 (by decide) (ownWord_some (by
      show OwnWord Own (d₆.esp + 4)
      rw [hesp]
      exact hown 4 (by decide)))
  exact ⟨k, _, .cons h1 (.cons h2 (.cons h3 (.cons h4 (.cons h5 (.cons
    ⟨hint₅, hk ▸ hi, F, hF, ht⟩ (.cons h7 (.cons h8 (.nil _))))))))⟩

/-! ## A program that writes -/

/-- The page of a program, where the program sees it. -/
def samplePage (b : Word) : Prop := InSpan b 0x8000000 0x400000

/-- Every call returns the sum of its arguments. -/
def sampleService : Service := fun k m m' =>
  k.result = k.arg1 + k.arg2 + k.arg3 ∧ ∀ b, samplePage b → m' b = m b

/-- A program at the wrapper of `write`. -/
def sampleCaller : Core Reg where
  reg _ := 0
  esp := 0x83FFFE0
  eip := 0x8048000
  eflags := 0x202
  cs := userCs
  ss := userDs
  ds := userDs
  es := userDs
  mem := ((initTables sampleSymbols sampleLoaded).store8 0x8048012 0xCD).store8 0x8048013 0x80

theorem isLocal_sampleService : sampleService.Local samplePage := by
  rintro k m m' n n' hn hn' ⟨hres, hkept⟩
  refine ⟨hres, fun b hb => ?_⟩
  rw [hn' b hb, hkept b hb, hn b hb]

theorem serves_sampleHandlers : Serves (fun b => b = 0x430000) samplePage 76 sampleService
    HieUnix.sampleHandlers where
  cdecl := sampleHandlers_cdecl
  mem _ _ _ _ _ _ := rfl
  service _ _ := ⟨rfl, fun _ _ => rfl⟩

theorem separateCalls_sample :
    SeparateCalls sampleSymbols (fun b => b = 0x430000) samplePage 76 0x800000 := by
  constructor
  · rintro b hb rfl
    unfold Below at hb
    bv_omega
  · intro b hb
    have hspan := tables_sample hb
    refine ⟨fun h => ?_, fun h => ?_, fun h => ?_⟩
    · rw [h] at hspan
      revert hspan
      decide
    · unfold Below at h
      bv_omega
    · unfold samplePage InSpan at h
      bv_omega
  · intro b hb
    unfold samplePage InSpan at hb
    refine ⟨fun h => ?_, fun h => ?_⟩
    · rw [h] at hb
      revert hb
      decide
    · unfold Below at h
      bv_omega

theorem contract_sample : Contract sampleSymbols (fun b => b = 0x430000) samplePage 4 76 0x800000
    sampleHandlers (fun F => F = HieUnix.sampleHandlers) sampleService
    (doCall samplePage 0x8048000 (sysNum .write)) where
  code := userCode_doCall
  irq := convention_sampleHandlers
  call F hF := hF ▸ serves_sampleHandlers
  isLocal := isLocal_sampleService
  separate := separateCalls_sample
  ret := by decide
  room := by decide
  fits := by decide

theorem inUserMode_sampleCaller : InUserMode sampleSymbols 0x800000 sampleCaller := by
  refine inUserMode_sampleProgram.congr rfl rfl rfl fun b hb => ?_
  have hspan := (separateCalls_sample.tables b hb).2.2
  have hne : ∀ a, samplePage a → b ≠ a := fun a ha h => hspan (h ▸ ha)
  show (((initTables sampleSymbols sampleLoaded).store8 0x8048012 0xCD).store8 0x8048013 0x80) b = _
  rw [Memory.store8_of_ne _ _ (hne _ (by unfold samplePage InSpan; decide)),
    Memory.store8_of_ne _ _ (hne _ (by unfold samplePage InSpan; decide))]
  rfl

/-- The device can interrupt the kernel. -/
theorem exists_irq_sample {e : Core Reg} (hcpl : e.cpl = 0) (htab : Tabled sampleSymbols e.mem)
    (i : Irq) : ∃ e', i.takes sampleHandlers sampleSymbols.registers e e' := by
  have hleads := htab.leads (mem_idtGates i)
    (show (intrGate : Word).extractLsb' 8 4 ≠ 0x5 by decide)
  have hsoft : false = true → ¬ (gateOf intrGate (sampleSymbols.entry i.entry)).dpl < e.cpl :=
    fun h => absurd h Bool.false_ne_true
  have hraise := hleads.raise_same hsoft hcpl
  cases i <;> exact ⟨_, _, hraise, _, rfl, rfl⟩

/-- The gate of system calls leaves interrupts on: a tick and a key come before the first
instruction of `handle_syscall`. -/
theorem interrupted_sample {d e : Core Reg} (hmode : InUserMode sampleSymbols 0x800000 d)
    (hflags : d.eflags = 0x202)
    (he : raise sampleSymbols.registers true 128 (afterInt d) = .ok e) :
    ∃ e', Steps sampleHandlers sampleSymbols.registers [] [.pit, .keyboard] e e' := by
  obtain ⟨hleads, hsoft, hcpl⟩ := hmode.gate
  obtain ⟨-, -, hS, -⟩ := hmode.entered contract_sample.interruptible separateCalls_sample he
  -- a trap gate leaves `IF` as it was
  have hif : e.eflags.getLsbD 9 = true := by
    rw [hleads.raise_inner hsoft hcpl] at he
    obtain rfl := Except.ok.inj he
    show (gateFlags (gateOf systemGate (sampleSymbols.entry .handleSyscall)) d.eflags).getLsbD 9
      = true
    rw [hflags]
    decide
  have htop : stackTop sampleSymbols e = 0x800000 - BitVec.ofNat 32 20 :=
    (if_pos hS.cpl).trans hS.esp
  -- the drivers use 4 bytes below the stub
  have hroom : RoomFor sampleSymbols (fun b => b = 0x430000) 4 e := by
    constructor
    · rintro b hb rfl
      rw [htop] at hb
      revert hb
      unfold Below
      decide
    · intro b hb
      refine ⟨(hS.interruptible.tables b hb).1, fun h => (hS.interruptible.tables b hb).2 ?_⟩
      rw [htop] at h
      exact (h.of_sub (by decide)).mono (by decide)
  -- the tick leaves everything as it was, so that the key can come next
  obtain ⟨e₁, ht₁⟩ := exists_irq_sample hS.cpl hS.tabled .pit
  obtain ⟨he₁, hmem₁⟩ := irq_restores hS.tabled convention_sampleHandlers (by decide) (by decide)
    hroom (fun h => absurd hS.cpl h) ht₁
  have hcpl₁ : e₁.cpl = 0 := by
    rw [he₁]
    exact hS.cpl
  have htab₁ : Tabled sampleSymbols e₁.mem := hS.tabled.congr fun b hb => by
    obtain ⟨h1, h2⟩ := hroom.tables b hb
    exact hmem₁ b h1 h2
  obtain ⟨e₂, ht₂⟩ := exists_irq_sample hcpl₁ htab₁ .keyboard
  have hif₁ : e₁.eflags.getLsbD 9 = true := by
    rw [he₁]
    exact hif
  have hst₁ : (stubLTS sampleHandlers sampleSymbols.registers).step e (.inr .pit) e₁ := ⟨hif, ht₁⟩
  have hst₂ : (stubLTS sampleHandlers sampleSymbols.registers).step e₁ (.inr .keyboard) e₂ :=
    ⟨hif₁, ht₂⟩
  exact ⟨e₂, [.inr .pit, .inr .keyboard], .cons hst₁ (.cons hst₂ (.nil _)), rfl, rfl⟩

/-- A tick comes before the wrapper, and a tick and a key at the entry of `handle_syscall`. -/
theorem sampleCaller_runs : ∃ k c', (programLTS sampleSymbols sampleHandlers
      (fun F => F = HieUnix.sampleHandlers) samplePage
      (doCall samplePage 0x8048000 (sysNum .write))).Run sampleCaller
    [.irq .pit, .instr, .instr, .instr, .instr, .instr, .call k [.pit, .keyboard], .instr,
      .instr] c' := by
  have hleads := inUserMode_sampleCaller.tabled.leads (mem_idtGates .pit)
    (show (intrGate : Word).extractLsb' 8 4 ≠ 0x5 by decide)
  have hcpl : sampleCaller.cpl ≠ 0 := by
    rw [inUserMode_sampleCaller.cpl]
    decide
  have hsoft : false = true → ¬ (gateOf intrGate (sampleSymbols.entry Irq.pit.entry)).dpl
      < sampleCaller.cpl := fun h => absurd h Bool.false_ne_true
  -- the tick before the first instruction
  obtain ⟨c₁, hst⟩ : ∃ c₁, (programLTS sampleSymbols sampleHandlers
      (fun F => F = HieUnix.sampleHandlers) samplePage
      (doCall samplePage 0x8048000 (sysNum .write))).step sampleCaller (.irq .pit) c₁ :=
    ⟨_, show sampleCaller.eflags.getLsbD 9 = true by decide, _, hleads.raise_inner hsoft hcpl, _,
      rfl, rfl⟩
  obtain ⟨hmode₁, hsame₁⟩ := contract_sample.irq_unseen inUserMode_sampleCaller .rfl hst
  have heip : c₁.eip = 0x8048000 := by rw [hsame₁.rest]; rfl
  have hesp : c₁.esp = 0x83FFFE0 := by rw [hsame₁.rest]; rfl
  have hflags : c₁.eflags = 0x202 := by rw [hsame₁.rest]; rfl
  have hint : AtInt samplePage { sampleCaller with eip := 0x8048000 + 18 } := by
    refine ⟨?_, ?_, rfl, rfl⟩ <;> · unfold samplePage InSpan; decide
  have hint₁ : AtInt samplePage { c₁ with eip := 0x8048000 + 18 } :=
    hint.congr ⟨by rw [hsame₁.rest], hsame₁.mem⟩
  -- the wrapper from there on, with the tick and the key in its call
  obtain ⟨k, c', hr⟩ := wrapper_runs contract_sample hmode₁ heip rfl (by decide) hint₁
    (fun b hb => by
      rw [hesp] at hb
      unfold InSpan at hb
      unfold samplePage InSpan
      bv_omega)
    (by
      rw [hesp]
      exact ⟨by unfold InSpan; decide, by unfold InSpan; decide⟩)
    (fun d e hd hflags' he => interrupted_sample hd (hflags'.trans hflags) he)
  exact ⟨k, c', .cons hst hr⟩

/-- The program does what the service says. -/
theorem program_runs_sample : ∃ k c' d, (programLTS sampleSymbols sampleHandlers
      (fun F => F = HieUnix.sampleHandlers) samplePage
      (doCall samplePage 0x8048000 (sysNum .write))).Run sampleCaller
    [.irq .pit, .instr, .instr, .instr, .instr, .instr, .call k [.pit, .keyboard], .instr,
      .instr] c' ∧
    (serviceLTS samplePage sampleService (doCall samplePage 0x8048000 (sysNum .write))).Run
      sampleCaller [.instr, .instr, .instr, .instr, .instr, .call k, .instr, .instr] d ∧
    Same samplePage d c' := by
  obtain ⟨k, c', hr⟩ := sampleCaller_runs
  obtain ⟨d, hd, hsame⟩ := program_runs contract_sample inUserMode_sampleCaller hr
  exact ⟨k, c', d, hr, hd, hsame⟩

/-- `write` returns what the kernel returned. -/
theorem wrapper_returns_sample : ∃ (k : SysCall) (c' : Core Reg), k.handler = .write ∧
    c'.eip = sampleCaller.mem.load32 0x83FFFE0 ∧ c'.esp = 0x83FFFE4 ∧
    c'.reg .eax = k.arg1 + k.arg2 + k.arg3 ∧ c'.reg .ebx = 0 := by
  obtain ⟨k, c', hr⟩ := sampleCaller_runs
  obtain ⟨hk, -, -, -, hv, hc'⟩ := wrapper_returns contract_sample inUserMode_sampleCaller rfl
    (fun m m' b hv hb => hv.2 b (by
      change InSpan b (0x83FFFE0 - 4) 8 at hb
      unfold InSpan at hb
      unfold samplePage InSpan
      bv_omega)) rfl hr
  refine ⟨k, c', hk, ?_, ?_, ?_, ?_⟩
  · rw [hc']
    rfl
  · rw [hc']
    rfl
  · rw [hc', ← hv.1]
    rfl
  · rw [hc']
    rfl

end HieUnix.Interrupt
