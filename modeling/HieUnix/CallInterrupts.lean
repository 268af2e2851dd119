import HieUnix.InterruptFrames

/-!
# Interrupts in a system call

The gate of `INT $0x80` leaves interrupts on. `handle_syscall` of `syscall_entry.S` is here a list
of instructions on the machine, and an interrupt may come before each of them and before `iret`
(`handles`). The instructions are those of `handleSyscall` (`exists_handles`).

What the stub works on are the registers and the words on its stack, on which each instruction is a
step (`StubInstr.onFrame`). An interrupt changes neither (`StubHolds.irq`), so that the machine
follows those steps whatever interrupts come (`StubHolds.run`).
-/

namespace HieUnix.Interrupt

open X86 Function

/-! ## The instructions -/

/-- The registers that `handle_syscall` works on. -/
def cpuOf (c : Core Reg) : Cpu where
  reg := c.reg
  esp := c.esp
  ds := c.ds
  es := c.es
  df := c.eflags.getLsbD 10
  mem := c.mem

/-- The registers after its instructions, but for the flags. -/
def withCpu (c : Core Reg) (x : Cpu) : Core Reg :=
  { c with reg := x.reg, esp := x.esp, ds := x.ds, es := x.es, mem := x.mem }

/-- The instructions of `handle_syscall` that do more than compare and jump. -/
inductive StubInstr
  | pushl (r : Reg)
  | pushDs
  | pushEs
  | cld
  | popl (r : Reg)
  | popDs
  | popEs
  | storeEnosys
  | storeEax
  | addEsp (words : ℕ)
  | call (retAddr : Word)

/-- What an instruction does. -/
def StubInstr.exec : StubInstr → Cpu → Cpu
  | pushl r, x => x.pushl r
  | pushDs, x => x.pushDs
  | pushEs, x => x.pushEs
  | cld, x => { x with df := false }
  | popl r, x => x.popl r
  | popDs, x => x.popDs
  | popEs, x => x.popEs
  | storeEnosys, x => x.storeResult enosys
  | storeEax, x => x.storeResult (x.reg .eax)
  | addEsp n, x => x.addEsp (BitVec.ofNat 32 (4 * n))
  | call a, x => x.push a

/-- The instructions one after the other. -/
def execAll (l : List StubInstr) (x : Cpu) : Cpu := l.foldl (fun x i => i.exec x) x

/-- `pushl %eax` and `SAVE_ALL_SYS`. -/
def saveInstrs : List StubInstr :=
  [.pushl .eax, .cld, .pushEs, .pushDs, .pushl .eax, .pushl .ebp, .pushl .edi, .pushl .esi,
    .pushl .edx, .pushl .ecx, .pushl .ebx]

/-- `syscall_is_valid`, and the call behind the entry of `sys_call_table`. -/
def callInstrs (retAddr : Word) : List StubInstr :=
  [.pushl .edx, .pushl .ecx, .pushl .ebx, .call retAddr]

/-- `resume_userspace`, up to its `iret`. -/
def resumeInstrs : List StubInstr :=
  [.storeEax, .popl .ebx, .popl .ecx, .popl .edx, .popl .esi, .popl .edi, .popl .ebp, .popl .eax,
    .popDs, .popEs, .addEsp 1]

/-- `ret_from_syscalls`. -/
def returnInstrs : List StubInstr := .addEsp 3 :: resumeInstrs

/-- `syscall_invalid`. -/
def invalidInstrs : List StubInstr := .storeEnosys :: resumeInstrs

theorem execAll_saveInstrs (x : Cpu) : execAll saveInstrs x = saveAllSys (x.pushl .eax) := rfl

theorem execAll_callInstrs (F : HieUnix.Handlers) (i : Handler) (x : Cpu) :
    execAll (callInstrs (F.retAddr i)) x = enterHandler F i x := rfl

theorem execAll_returnInstrs (x : Cpu) : execAll returnInstrs x = retFromSyscalls x := rfl

theorem execAll_invalidInstrs (x : Cpu) : execAll invalidInstrs x = syscallInvalid x := rfl

/-! ## The stub on the machine -/

/-- The processor does `f`: it goes on elsewhere, and of the flags only `DF` matters to the stub. -/
def Performs (f : Cpu → Cpu) (c c' : Core Reg) : Prop :=
  ∃ eip eflags, c' = { withCpu c (f (cpuOf c)) with eip := eip, eflags := eflags } ∧
    eflags.getLsbD 10 = (f (cpuOf c)).df

/-- Instructions of the stub, and interrupts while `IF` is set. -/
def stubLTS (H : Handlers) (T : TableRegisters) : LTS (Core Reg) (StubInstr ⊕ Irq) where
  init _ := True
  step c o c' :=
    match o with
    | .inl i => Performs i.exec c c'
    | .inr i => c.eflags.getLsbD 9 = true ∧ i.takes H T c c'

/-- The instructions `l` in this order, with the interrupts `irqs` among them. -/
def Steps (H : Handlers) (T : TableRegisters) (l : List StubInstr) (irqs : List Irq)
    (c c' : Core Reg) : Prop :=
  ∃ os, (stubLTS H T).Run c os c' ∧ os.filterMap Sum.getLeft? = l ∧
    os.filterMap Sum.getRight? = irqs

/-- `syscall_is_valid` up to the `iret`: the jump into the table and the call of the C function,
which takes its own interrupts. -/
def handlesValid (H : Handlers) (F : HieUnix.Handlers) (T : TableRegisters) (s : Core Reg)
    (irqs : List Irq) (calls : List SysCall) (r : Core Reg) : Prop :=
  ∃ i enter back irqs₁ irqs₂, sysCallTable[(s.reg .eax - 1).toNat]? = some i ∧
    Steps H T (callInstrs (F.retAddr i)) irqs₁ s enter ∧ Performs (F.run i) enter back ∧
    Steps H T returnInstrs irqs₂ back r ∧ irqs = irqs₁ ++ irqs₂ ∧
    calls = [sysCall i (cpuOf enter) (cpuOf back)]

/-- `syscall_invalid` up to the `iret`. -/
def handlesInvalid (H : Handlers) (T : TableRegisters) (s : Core Reg) (irqs : List Irq)
    (calls : List SysCall) (r : Core Reg) : Prop :=
  Steps H T invalidInstrs irqs s r ∧ calls = []

/-- `handle_syscall` up to its `iret`: the interrupts it takes and the functions it calls. -/
def handles (H : Handlers) (F : HieUnix.Handlers) (T : TableRegisters) (e : Core Reg)
    (irqs : List Irq) (calls : List SysCall) (r : Core Reg) : Prop :=
  ∃ s irqs₁ irqs₂, Steps H T saveInstrs irqs₁ e s ∧ irqs = irqs₁ ++ irqs₂ ∧
    if s.reg .eax < 1 then handlesInvalid H T s irqs₂ calls r
    else if s.reg .eax < 11 then handlesValid H F T s irqs₂ calls r
    else handlesInvalid H T s irqs₂ calls r

variable {H : Handlers} {F : HieUnix.Handlers} {T : TableRegisters} {c c' e : Core Reg}
  {f : Cpu → Cpu} {x : Cpu} {y : Exit} {irqs irqs' : List Irq} {l : List StubInstr}

/-! ## The instructions are those of the stub -/

/-- Every instruction can be performed. -/
theorem exists_performs (f : Cpu → Cpu) (c : Core Reg) :
    ∃ c', Performs f c c' ∧ cpuOf c' = f (cpuOf c) := by
  obtain ⟨flags, hflags⟩ : ∃ flags : Word, flags.getLsbD 10 = (f (cpuOf c)).df := by
    cases (f (cpuOf c)).df with
    | true => exact ⟨0x400, by decide⟩
    | false => exact ⟨0, by decide⟩
  refine ⟨_, ⟨c.eip, flags, rfl, hflags⟩, ?_⟩
  show Cpu.mk _ _ _ _ (flags.getLsbD 10) _ = _
  rw [hflags]
  rfl

/-- Without interrupts. -/
theorem exists_steps (H : Handlers) (T : TableRegisters) (l : List StubInstr) (c : Core Reg) :
    ∃ c', Steps H T l [] c c' ∧ cpuOf c' = execAll l (cpuOf c) := by
  induction l generalizing c with
  | nil => exact ⟨c, ⟨[], .nil c, rfl, rfl⟩, rfl⟩
  | cons i l ih =>
    obtain ⟨c₁, hst, hc₁⟩ := exists_performs i.exec c
    obtain ⟨c', ⟨os, hr, hl, hirqs⟩, hc'⟩ := ih c₁
    have hst' : (stubLTS H T).step c (.inl i) c₁ := hst
    refine ⟨c', ⟨.inl i :: os, .cons hst' hr, congrArg (i :: ·) hl, hirqs⟩, ?_⟩
    rw [hc', hc₁]
    rfl

/-- Interrupts before the first instruction. -/
theorem Steps.interrupted (hi : Steps H T [] irqs c e) (h : Steps H T l irqs' e c') :
    Steps H T l (irqs ++ irqs') c c' := by
  obtain ⟨os, hr, hl, rfl⟩ := hi
  obtain ⟨os', hr', rfl, rfl⟩ := h
  refine ⟨os ++ os', hr.append hr', ?_, List.filterMap_append⟩
  rw [List.filterMap_append, hl, List.nil_append]

theorem handles.interrupted {calls : List SysCall} (hi : Steps H T [] irqs c e)
    (h : handles H F T e irqs' calls c') : handles H F T c (irqs ++ irqs') calls c' := by
  obtain ⟨s, irqs₁, irqs₂, hsave, rfl, hrest⟩ := h
  exact ⟨s, irqs ++ irqs₁, irqs₂, hi.interrupted hsave, (List.append_assoc _ _ _).symm, hrest⟩

/-- **The list is the stub**: without interrupts it does what `handleSyscall` does. -/
theorem exists_handles (H : Handlers) (T : TableRegisters)
    (hy : handleSyscall F (cpuOf e) = some y) :
    ∃ r, handles H F T e [] y.calls r ∧ cpuOf r = y.cpu := by
  obtain ⟨s, hsave, hs⟩ := exists_steps H T saveInstrs e
  rw [execAll_saveInstrs] at hs
  have heax : (saveAllSys ((cpuOf e).pushl .eax)).reg .eax = s.reg .eax := by
    rw [← hs]
    rfl
  have hinvalid : ∀ y : Exit, some ⟨syscallInvalid (cpuOf s), []⟩ = some y →
      ∃ r, handlesInvalid H T s [] y.calls r ∧ cpuOf r = y.cpu := by
    intro y hy
    obtain rfl := Option.some.inj hy
    obtain ⟨r, hr, hcpu⟩ := exists_steps H T invalidInstrs s
    rw [execAll_invalidInstrs] at hcpu
    exact ⟨r, ⟨hr, rfl⟩, hcpu⟩
  unfold handleSyscall compareCall at hy
  rw [heax, ← hs] at hy
  -- the three ways through `compare_call`
  by_cases h1 : s.reg .eax < 1
  · rw [if_pos h1] at hy
    obtain ⟨r, hr, hcpu⟩ := hinvalid y hy
    refine ⟨r, ⟨s, [], [], hsave, rfl, ?_⟩, hcpu⟩
    rwa [if_pos h1]
  · rw [if_neg h1] at hy
    by_cases h11 : s.reg .eax < 11
    · rw [if_pos h11] at hy
      unfold syscallIsValid at hy
      cases hi : sysCallTable[((cpuOf s).reg .eax - 1).toNat]? with
      | none =>
        rw [hi] at hy
        exact absurd hy.symm (Option.some_ne_none y)
      | some i =>
        rw [hi] at hy
        obtain rfl := Option.some.inj hy
        obtain ⟨enter, hcall, henter⟩ := exists_steps H T (callInstrs (F.retAddr i)) s
        obtain ⟨back, hrun, hback⟩ := exists_performs (F.run i) enter
        obtain ⟨r, hret, hcpu⟩ := exists_steps H T returnInstrs back
        rw [execAll_callInstrs] at henter
        rw [execAll_returnInstrs] at hcpu
        rw [hback, henter] at hcpu
        refine ⟨r, ⟨s, [], [], hsave, rfl, ?_⟩, hcpu⟩
        rw [if_neg h1, if_pos h11]
        refine ⟨i, enter, back, [], [], hi, hcall, hrun, hret, rfl, ?_⟩
        rw [hback, henter]
    · rw [if_neg h11] at hy
      obtain ⟨r, hr, hcpu⟩ := hinvalid y hy
      refine ⟨r, ⟨s, [], [], hsave, rfl, ?_⟩, hcpu⟩
      rwa [if_neg h1, if_neg h11]

/-! ## The registers and the stack -/

/-- What the stub works on: the registers that it saves and the words on its stack. -/
structure StubFrame where
  reg : Reg → Word
  ds : Selector
  es : Selector
  stack : List Word

namespace StubFrame

def push (a : StubFrame) (v : Word) : StubFrame := { a with stack := v :: a.stack }

def top (a : StubFrame) : Word := a.stack.headD 0

def drop (a : StubFrame) (n : ℕ) : StubFrame := { a with stack := a.stack.drop n }

/-- The `eax` word of the frame is the seventh. -/
def storeResult (a : StubFrame) (v : Word) : StubFrame := { a with stack := a.stack.set 6 v }

end StubFrame

namespace StubInstr

/-- What an instruction does to the registers and the words. -/
def onFrame : StubInstr → StubFrame → StubFrame
  | pushl r, a => a.push (a.reg r)
  | pushDs, a => a.push (a.ds.setWidth 32)
  | pushEs, a => a.push (a.es.setWidth 32)
  | cld, a => a
  | popl r, a => { a.drop 1 with reg := update a.reg r a.top }
  | popDs, a => { a.drop 1 with ds := a.top.setWidth 16 }
  | popEs, a => { a.drop 1 with es := a.top.setWidth 16 }
  | storeEnosys, a => a.storeResult enosys
  | storeEax, a => a.storeResult (a.reg .eax)
  | addEsp n, a => a.drop n
  | call w, a => a.push w

/-- How many words are on the stack after it, of `n`, if it finds those that it needs. The stub
pushes no more than nineteen. -/
def words : StubInstr → ℕ → Option ℕ
  | pushl _, n | pushDs, n | pushEs, n | call _, n => if n < 19 then some (n + 1) else none
  | cld, n => some n
  | popl _, n | popDs, n | popEs, n => if 1 ≤ n then some (n - 1) else none
  | storeEnosys, n | storeEax, n => if 6 < n then some n else none
  | addEsp k, n => if k ≤ n then some (n - k) else none

end StubInstr

/-- The instructions one after the other. -/
def onFrameAll (l : List StubInstr) (a : StubFrame) : StubFrame :=
  l.foldl (fun a i => i.onFrame a) a

/-- The number of words after the instructions. -/
def wordsAll (l : List StubInstr) (n : ℕ) : Option ℕ := l.foldlM (fun n i => i.words n) n

variable {a : StubFrame} {i : StubInstr} {n : ℕ} {v : Word}

theorem length_onFrame (h : i.words a.stack.length = some n) :
    (i.onFrame a).stack.length = n := by
  cases i <;> simp only [StubInstr.words, Option.ite_none_right_eq_some, Option.some.injEq] at h <;>
    simp only [StubInstr.onFrame, StubFrame.push, StubFrame.drop, StubFrame.storeResult,
      List.length_cons, List.length_drop, List.length_set] <;> omega

/-- The words that the stub has saved. -/
def StubFrame.saved (a : StubFrame) : StubFrame :=
  { a with
    stack := [a.reg .ebx, a.reg .ecx, a.reg .edx, a.reg .esi, a.reg .edi, a.reg .ebp, a.reg .eax,
      a.ds.setWidth 32, a.es.setWidth 32, a.reg .eax] ++ a.stack }

theorem onFrameAll_saveInstrs (a : StubFrame) : onFrameAll saveInstrs a = a.saved := by
  obtain ⟨reg, ds, es, stack⟩ := a
  rfl

theorem onFrameAll_callInstrs (a : StubFrame) (w : Word) : onFrameAll (callInstrs w) a
    = { a with stack := w :: a.reg .ebx :: a.reg .ecx :: a.reg .edx :: a.stack } := rfl

/-- From its words the stub restores the registers, and `%eax` is the value that it has. -/
theorem onFrameAll_resumeInstrs {b : StubFrame} {eax : Word}
    (hb : b.stack = a.saved.stack.set 6 eax) :
    onFrameAll resumeInstrs b = { a with reg := update a.reg .eax (b.reg .eax) } := by
  obtain ⟨reg, ds, es, stack⟩ := b
  obtain rfl : stack = _ := hb
  have hreg : (onFrameAll resumeInstrs ⟨reg, ds, es, a.saved.stack.set 6 eax⟩).reg
      = update a.reg .eax (reg .eax) := by
    funext r
    cases r <;> rfl
  have hds : (onFrameAll resumeInstrs ⟨reg, ds, es, a.saved.stack.set 6 eax⟩).ds = a.ds :=
    setWidth_selector a.ds
  have hes : (onFrameAll resumeInstrs ⟨reg, ds, es, a.saved.stack.set 6 eax⟩).es = a.es :=
    setWidth_selector a.es
  rw [← hreg, ← hds, ← hes]
  rfl

theorem onFrameAll_invalidInstrs (a : StubFrame) : onFrameAll invalidInstrs a.saved = a := by
  have h := onFrameAll_resumeInstrs (b := a.saved.storeResult enosys) (a := a) rfl
  have hreg : update a.reg .eax (a.reg .eax) = a.reg := update_eq_self _ _
  exact h.trans (by rw [show (a.saved.storeResult enosys).reg = a.reg from rfl, hreg])

/-- The arguments of the function may be overwritten. -/
theorem onFrameAll_returnInstrs {b : StubFrame} (hb : b.stack.drop 3 = a.saved.stack) :
    onFrameAll returnInstrs b = { a with reg := update a.reg .eax (b.reg .eax) } := by
  have hdrop : (b.drop 3).stack = a.saved.stack.set 6 (a.reg .eax) := hb
  exact onFrameAll_resumeInstrs hdrop

/-! ## Interrupts -/

variable {S : Symbols} {KernelData : Word → Prop} {depth lim : ℕ} {top : Word}

/-- Interrupts find room below the stub: the kernel's data is apart from the words of the stub and
from those of an interrupt, and the tables from both. -/
structure Interruptible (S : Symbols) (KernelData : Word → Prop) (depth lim : ℕ) (top : Word)
    (H : Handlers) : Prop where
  irq : ∀ i c r, H.run i c r → Convention KernelData depth c r
  frame : ∀ b, Below top 132 b → ¬ KernelData b
  tables : ∀ b, S.InTables b → ¬ KernelData b ∧ ¬ Below top lim b
  ret : 4 ≤ depth
  room : 132 + depth ≤ lim
  fits : lim < 2 ^ 32

/-- The machine holds the registers and the words below `top`, in the segments of `e`. Since `e` it
has changed the kernel's data and `lim` bytes of the stack. -/
structure StubHolds (KernelData : Word → Prop) (lim : ℕ) (top : Word) (e : Core Reg) (a : StubFrame)
    (c : Core Reg) : Prop where
  reg : c.reg = a.reg
  ds : c.ds = a.ds
  es : c.es = a.es
  cs : c.cs = e.cs
  ss : c.ss = e.ss
  esp : c.esp = top - BitVec.ofNat 32 (4 * a.stack.length)
  few : a.stack.length ≤ 19
  stack : c.stack a.stack.length = a.stack
  mem : ∀ b, ¬ KernelData b → ¬ Below top lim b → c.mem b = e.mem b

variable {eip eflags : Word}

theorem Interruptible.lim_le (hI : Interruptible S KernelData depth lim top H) :
    76 ≤ lim ∧ lim < 2 ^ 32 := by
  have hroom := hI.room
  exact ⟨by omega, hI.fits⟩

/-- The machine as the stub finds it. -/
theorem StubHolds.start (hesp : c.esp = top - BitVec.ofNat 32 (4 * n)) (hn : n ≤ 19) :
    StubHolds KernelData lim top c ⟨c.reg, c.ds, c.es, c.stack n⟩ c := by
  have hlen : (c.stack n).length = n := Memory.length_words _ _ _
  refine ⟨rfl, rfl, rfl, rfl, rfl, ?_, ?_, ?_, fun _ _ _ => rfl⟩ <;> rw [hlen] <;> assumption

/-- Words of the stub are below `top`. -/
theorem StubHolds.below (h : StubHolds KernelData lim top e a c) {b : Word}
    (hb : InSpan b c.esp (4 * a.stack.length)) : Below top (4 * a.stack.length) b := by
  have hfew := h.few
  rw [h.esp] at hb
  exact (inSpan_iff_below (by omega)).mp hb

theorem StubHolds.push (h : StubHolds KernelData lim top e a c)
    (hI : Interruptible S KernelData depth lim top H) (hlen : a.stack.length < 19) (v : Word) :
    StubHolds KernelData lim top e (a.push v) { c with
      esp := c.esp - 4, mem := c.mem.store32 (c.esp - 4) v, eip := eip, eflags := eflags } := by
  obtain ⟨hlim, -⟩ := hI.lim_le
  have hesp : c.esp - 4 = top - BitVec.ofNat 32 (4 * a.stack.length + 4) := by
    rw [h.esp, BitVec.ofNat_add]
    show top - BitVec.ofNat 32 (4 * a.stack.length) - 4
      = top - (BitVec.ofNat 32 (4 * a.stack.length) + 4)
    bv_omega
  refine ⟨h.reg, h.ds, h.es, h.cs, h.ss, hesp, hlen, ?_, fun b hb hnot => ?_⟩
  · exact (Memory.words_push c.mem c.esp v (by omega)).trans (congrArg (v :: ·) h.stack)
  · refine (Memory.store32_of_not_inSpan c.mem v fun hin => hnot ?_).trans (h.mem b hb hnot)
    have hin' : InSpan b (c.esp - BitVec.ofNat 32 4) 4 := hin
    have hbelow := (inSpan_iff_below (by decide)).mp hin'
    rw [h.esp] at hbelow
    exact (hbelow.of_sub (by omega)).mono (by omega)

theorem StubHolds.drop (h : StubHolds KernelData lim top e a c) (hn : n ≤ a.stack.length)
    (eip eflags : Word) :
    StubHolds KernelData lim top e (a.drop n) { c with
      esp := c.esp + BitVec.ofNat 32 (4 * n), eip := eip, eflags := eflags } := by
  obtain ⟨k, hk⟩ := Nat.exists_eq_add_of_le hn
  have hlen : (a.drop n).stack.length = k := by
    rw [StubFrame.drop, List.length_drop, hk, Nat.add_sub_cancel_left]
  have hfew := h.few
  refine ⟨h.reg, h.ds, h.es, h.cs, h.ss, ?_, by omega, ?_, h.mem⟩
  · rw [hlen]
    show c.esp + BitVec.ofNat 32 (4 * n) = _
    rw [h.esp, hk, Nat.mul_add, BitVec.ofNat_add]
    bv_omega
  · rw [hlen]
    have hdrop := Memory.drop_words c.mem c.esp n k
    rw [← hk] at hdrop
    exact hdrop.symm.trans (congrArg (List.drop n) h.stack)

/-- The word that a pop reads. -/
theorem StubHolds.top_eq (h : StubHolds KernelData lim top e a c) (hn : 1 ≤ a.stack.length) :
    (cpuOf c).top = a.top := by
  have hs := h.stack
  cases ha : a.stack with
  | nil =>
    rw [ha] at hn
    exact absurd hn (by decide)
  | cons w ws =>
    rw [ha] at hs
    rw [StubFrame.top, ha]
    exact (List.cons.inj hs).1

theorem StubHolds.storeResult (h : StubHolds KernelData lim top e a c)
    (hI : Interruptible S KernelData depth lim top H) (hn : 6 < a.stack.length) (v : Word) :
    StubHolds KernelData lim top e (a.storeResult v) { c with
      mem := c.mem.store32 (c.esp + 24) v, eip := eip, eflags := eflags } := by
  obtain ⟨hlim, -⟩ := hI.lim_le
  have hfew := h.few
  have hlen : (a.storeResult v).stack.length = a.stack.length := List.length_set
  have hoff : BitVec.ofNat 32 (4 * 6) = 24 := by decide
  refine ⟨h.reg, h.ds, h.es, h.cs, h.ss, ?_, ?_, ?_, fun b hb hnot => ?_⟩
  · rw [hlen]
    exact h.esp
  · rw [hlen]
    exact hfew
  · have hset := Memory.words_store32 c.mem c.esp v hn (by omega)
    rw [hoff] at hset
    rw [hlen]
    exact hset.trans (congrArg (List.set · 6 v) h.stack)
  · refine (Memory.store32_of_not_inSpan c.mem v fun hin => hnot ?_).trans (h.mem b hb hnot)
    refine (h.below (b := b) ?_).mono (by omega)
    unfold InSpan at hin ⊢
    bv_omega

/-- **One instruction.** -/
theorem StubHolds.exec (h : StubHolds KernelData lim top e a c)
    (hI : Interruptible S KernelData depth lim top H) (hn : i.words a.stack.length = some n)
    (hp : Performs i.exec c c') : StubHolds KernelData lim top e (i.onFrame a) c' := by
  obtain ⟨eip, eflags, rfl, -⟩ := hp
  -- a push adds a word below the others, a pop takes the last one off
  cases i with
  | pushl r =>
    show StubHolds KernelData lim top e (a.push (a.reg r)) _
    rw [← h.reg]
    exact h.push hI (Option.ite_none_right_eq_some.mp hn).1 _
  | pushDs =>
    show StubHolds KernelData lim top e (a.push (a.ds.setWidth 32)) _
    rw [← h.ds]
    exact h.push hI (Option.ite_none_right_eq_some.mp hn).1 _
  | pushEs =>
    show StubHolds KernelData lim top e (a.push (a.es.setWidth 32)) _
    rw [← h.es]
    exact h.push hI (Option.ite_none_right_eq_some.mp hn).1 _
  | cld => exact ⟨h.reg, h.ds, h.es, h.cs, h.ss, h.esp, h.few, h.stack, h.mem⟩
  | popl r =>
    have hone := (Option.ite_none_right_eq_some.mp hn).1
    have hreg : update (cpuOf c).reg r (cpuOf c).top = update a.reg r a.top := by
      rw [h.top_eq hone]
      exact congrArg (update · r a.top) h.reg
    exact { h.drop hone eip eflags with reg := hreg }
  | popDs =>
    have hone := (Option.ite_none_right_eq_some.mp hn).1
    exact { h.drop hone eip eflags with
      ds := congrArg (BitVec.setWidth 16) (h.top_eq hone) }
  | popEs =>
    have hone := (Option.ite_none_right_eq_some.mp hn).1
    exact { h.drop hone eip eflags with
      es := congrArg (BitVec.setWidth 16) (h.top_eq hone) }
  | storeEnosys => exact h.storeResult hI (Option.ite_none_right_eq_some.mp hn).1 _
  | storeEax =>
    show StubHolds KernelData lim top e (a.storeResult (a.reg .eax)) _
    rw [← h.reg]
    exact h.storeResult hI (Option.ite_none_right_eq_some.mp hn).1 _
  | addEsp k => exact h.drop (Option.ite_none_right_eq_some.mp hn).1 _ _
  | call w => exact h.push hI (Option.ite_none_right_eq_some.mp hn).1 _

/-- **An interrupt** changes neither the registers nor the words. -/
theorem StubHolds.irq {j : Irq} (h : StubHolds KernelData lim top e a c)
    (hI : Interruptible S KernelData depth lim top H) (hcpl : e.cpl = 0) (htab : Tabled S e.mem)
    (ht : j.takes H S.registers c c') : StubHolds KernelData lim top e a c' := by
  have hroom := hI.room
  have hfits := hI.fits
  have hret := hI.ret
  have hfew := h.few
  have hcpl' : c.cpl = 0 := by
    rw [Core.cpl, h.cs]
    exact hcpl
  have htop : stackTop S c = c.esp := if_pos hcpl'
  have htab' : Tabled S c.mem := htab.congr fun b hb =>
    h.mem b (hI.tables b hb).1 (hI.tables b hb).2
  -- what an interrupt uses is below the words of the stub
  have hlow : ∀ {k b}, k ≤ 56 + depth → Below c.esp k b →
      Below top (4 * a.stack.length + k) b := by
    intro k b hk hb
    rw [h.esp] at hb
    exact hb.of_sub (by omega)
  have hroomFor : RoomFor S KernelData depth c := by
    constructor
    · rw [htop]
      exact fun b hb => hI.frame b ((hlow (by omega) hb).mono (by omega))
    · rw [htop]
      exact fun b hb => ⟨(hI.tables b hb).1, fun hb' => (hI.tables b hb).2
        ((hlow (by omega) hb').mono (by omega))⟩
  obtain ⟨heq, hmem⟩ := irq_restores htab' hI.irq hret (by omega) hroomFor
    (fun hne => absurd hcpl' hne) ht
  rw [htop] at hmem
  generalize c'.mem = m at heq hmem
  subst heq
  refine ⟨h.reg, h.ds, h.es, h.cs, h.ss, h.esp, h.few, ?_, fun b hb hnot => ?_⟩
  · refine (Memory.words_congr (by omega) fun b hb => hmem b ?_ ?_).trans h.stack
    · exact hI.frame b ((h.below hb).mono (by omega))
    · exact not_below_of_inSpan hb (by omega)
  · exact (hmem b hb fun hb' => hnot ((hlow le_rfl hb').mono (by omega))).trans (h.mem b hb hnot)

/-- **A run of the stub** is its instructions on the registers and the words, whatever interrupts
come. -/
theorem StubHolds.run {os : List (StubInstr ⊕ Irq)} (hr : (stubLTS H S.registers).Run c os c')
    (hI : Interruptible S KernelData depth lim top H) (hcpl : e.cpl = 0) (htab : Tabled S e.mem)
    (h : StubHolds KernelData lim top e a c)
    (hn : wordsAll (os.filterMap Sum.getLeft?) a.stack.length = some n) :
    StubHolds KernelData lim top e (onFrameAll (os.filterMap Sum.getLeft?) a) c' := by
  induction hr generalizing a with
  | nil => exact h
  | @cons c c₁ c' o os hst hr ih =>
    cases o with
    | inl i =>
      have hn' : ((i.words a.stack.length).bind fun n => wordsAll (os.filterMap Sum.getLeft?) n)
          = some n := hn
      obtain ⟨n₁, hi, hrest⟩ := Option.bind_eq_some_iff.mp hn'
      rw [← length_onFrame hi] at hrest
      exact ih (h.exec hI hi hst) hrest
    | inr j => exact ih (h.irq hI hcpl htab hst.2) hn

theorem StubHolds.steps (h : StubHolds KernelData lim top e a c)
    (hI : Interruptible S KernelData depth lim top H) (hcpl : e.cpl = 0) (htab : Tabled S e.mem)
    (hs : Steps H S.registers l irqs c c') (hn : wordsAll l a.stack.length = some n) :
    StubHolds KernelData lim top e (onFrameAll l a) c' := by
  obtain ⟨os, hr, rfl, -⟩ := hs
  exact h.run hr hI hcpl htab hn

end HieUnix.Interrupt
