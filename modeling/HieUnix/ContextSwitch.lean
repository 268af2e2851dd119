import HieUnix.SystemCall
import HieUnix.Types

/-!
# The context switch

How a process gives up the processor in the kernel and gets it back: `do_handle_pit` switches stacks
with `__switch_to` of `sched.h`, and `execute`, called by a program or for a key, starts another
program and waits at `ret_here`. A process that waits has on its kernel stack the frame of the
processor, the registers that the stub saved and the frame of the C function; the control block says
where. The next interrupt of a program comes on the kernel stack that `tss.esp0` says, which
`do_handle_pit`, `execute` and `halt` set.

The C code around the assembly is a parameter; its contract says where it may store and that it can
go on when its frame is as it was.
-/

namespace HieUnix.Interrupt

open X86 Function

/-! ## Ways into the kernel -/

/-- How a process comes to wait: by a tick, or by a key or a call that starts a program. -/
inductive Way
  | tick
  | key
  | call
deriving DecidableEq, Repr

namespace Way

/-- The vector. -/
def vector : Way → BitVec 8
  | tick => 32
  | key => 33
  | call => 128

/-- Whether it is an instruction. -/
def software : Way → Bool
  | call => true
  | _ => false

/-- Where the program goes on. -/
def next : Way → Core Reg → Core Reg
  | call, c => afterInt c
  | _, c => c

/-- The stub, up to the call of its C function, which `__execute` makes for a system call. -/
def enter (retAddr : Way → Word) : Way → Core Reg → Core Reg
  | tick, e => (saveAllReg (cli e)).push (retAddr tick)
  | key, e => (saveAll e).push (retAddr key)
  | call, e => withCpu e (enterHandler ⟨fun _ x => x, fun _ => retAddr call⟩ .execute
      (saveAllSys ((cpuOf e).pushl .eax)))

/-- The stub after the C function. -/
def leave (T : TableRegisters) : Way → Core Reg → Core Reg
  | tick, r => iret T (sti (restoreAllReg r))
  | key, r => iret T (restoreAll r)
  | call, r => iret T (withCpu r (retFromSyscalls (cpuOf r)))

/-- The bytes between the frame of the processor and the return address. -/
def size : Way → ℕ
  | tick => 32
  | key => 36
  | call => 52

/-- The gate that `idt_init` puts there. -/
def gate : Way → Word × BitVec 8 × Entry
  | tick => (intrGate, 32, .handlePit)
  | key => (intrGate, 33, .handleKeyboard)
  | call => (systemGate, 128, .handleSyscall)

end Way

variable {S : Symbols} {w : Way} {c e E r : Core Reg} {R : Way → Word} {T : TableRegisters}

@[simp] theorem Way.cs_next (w : Way) (c : Core Reg) : (w.next c).cs = c.cs := by cases w <;> rfl
@[simp] theorem Way.ss_next (w : Way) (c : Core Reg) : (w.next c).ss = c.ss := by cases w <;> rfl
@[simp] theorem Way.ds_next (w : Way) (c : Core Reg) : (w.next c).ds = c.ds := by cases w <;> rfl
@[simp] theorem Way.es_next (w : Way) (c : Core Reg) : (w.next c).es = c.es := by cases w <;> rfl
@[simp] theorem Way.esp_next (w : Way) (c : Core Reg) : (w.next c).esp = c.esp := by cases w <;> rfl
@[simp] theorem Way.reg_next (w : Way) (c : Core Reg) : (w.next c).reg = c.reg := by cases w <;> rfl
@[simp] theorem Way.mem_next (w : Way) (c : Core Reg) : (w.next c).mem = c.mem := by cases w <;> rfl

/-- A state in which the processor may be interrupted: a program, or the kernel's code on behalf of
one. A system call is a program's. -/
structure Runs (S : Symbols) (w : Way) (c : Core Reg) : Prop where
  tabled : Tabled S c.mem
  level : c.cpl = 3 ∨ w ≠ .call ∧ c.cpl = 0 ∧ c.ss = kernelDs
  ds : c.ds = userDs
  es : c.es = userDs

/-- The processor enters the stub. -/
structure Enters (S : Symbols) (w : Way) (c e : Core Reg) : Prop where
  runs : Runs S w c
  raised : raise S.registers w.software w.vector (w.next c) = .ok e

/-- The gate may be used. -/
theorem Runs.leads (h : Runs S w c) : S.registers.Leads (w.next c).mem w.vector
      (gateOf w.gate.1 (S.entry w.gate.2.2)) ∧
    (w.software = true → ¬ (gateOf w.gate.1 (S.entry w.gate.2.2)).dpl < (w.next c).cpl) := by
  rw [Way.mem_next]
  have hcpl : (w.next c).cpl = c.cpl := by rw [Core.cpl, Way.cs_next]; rfl
  rw [hcpl]
  cases w with
  | tick => exact ⟨h.tabled.leads (g := Way.tick.gate) (by decide)
      (show (intrGate : Word).extractLsb' 8 4 ≠ 0x5 by decide),
      fun h => absurd h Bool.false_ne_true⟩
  | key => exact ⟨h.tabled.leads (g := Way.key.gate) (by decide)
      (show (intrGate : Word).extractLsb' 8 4 ≠ 0x5 by decide),
      fun h => absurd h Bool.false_ne_true⟩
  | call =>
    refine ⟨h.tabled.leads (g := Way.call.gate) (by decide)
      (show (systemGate : Word).extractLsb' 8 4 ≠ 0x5 by decide), fun _ => ?_⟩
    have hthree : c.cpl = 3 := h.level.resolve_right fun h => h.1 rfl
    have hdpl : (gateOf Way.call.gate.1 (S.entry Way.call.gate.2.2)).dpl = 3 :=
      show (systemGate : Word).extractLsb' 13 2 = 3 by decide
    rw [hthree, hdpl]
    decide

/-- The stub is entered in the kernel's segments, on the stack of the process. -/
theorem Enters.entered (h : Enters S w c e) :
    Entered S.registers (w.next c) e ∧ e.cs = kernelCs ∧ e.ss = kernelDs := by
  obtain ⟨hleads, hsoft⟩ := h.runs.leads
  have hcs : withRpl kernelCs 0 = kernelCs := by decide
  have hcpl : (w.next c).cpl = c.cpl := by rw [Core.cpl, Way.cs_next]; rfl
  have hcs' : e.cs = kernelCs ∧ e.ss = kernelDs := by
    have he := h.raised
    by_cases h0 : (w.next c).cpl = 0
    · have hss : c.ss = kernelDs := by
        rw [hcpl] at h0
        refine (h.runs.level.resolve_left fun h3 => ?_).2.2
        rw [h3] at h0
        exact absurd h0 (by decide)
      rw [hleads.raise_same hsoft h0] at he
      obtain rfl := Except.ok.inj he
      refine ⟨hcs, (Core.ss_pushAll _ _).trans ?_⟩
      rw [Way.ss_next]
      exact hss
    · rw [hleads.raise_inner hsoft h0] at he
      obtain rfl := Except.ok.inj he
      refine ⟨hcs, (Core.ss_pushAll _ _).trans ?_⟩
      show S.registers.stackSegment (w.next c).mem 0 = kernelDs
      rw [Way.mem_next]
      exact h.runs.tabled.stackSegment
  exact ⟨hleads.entered hsoft h.raised, hcs'⟩

/-! ## The stack of `handle_syscall` -/

/-- From `m` on, `n` bytes below `top` have been pushed. -/
structure Pushed (top : Word) (n : ℕ) (m : Memory) (c : Cpu) : Prop where
  esp : c.esp = top - BitVec.ofNat 32 n
  mem : ∀ b, ¬ Below top n b → c.mem b = m b

section

variable {top : Word} {n : ℕ} {m : Memory} {x : Cpu} {i : Handler}

theorem Pushed.push (h : Pushed top n m x) (v : Word) (hn : n + 4 < 2 ^ 32) :
    Pushed top (n + 4) m (x.push v) := by
  have hesp : top - BitVec.ofNat 32 n - 4 = top - BitVec.ofNat 32 (n + 4) := by
    rw [BitVec.ofNat_add]
    show top - BitVec.ofNat 32 n - 4 = top - (BitVec.ofNat 32 n + 4)
    bv_omega
  constructor
  · show x.esp - 4 = _
    rw [h.esp, hesp]
  · intro b hb
    have hout : ¬ InSpan b (x.esp - 4) 4 := by
      intro hin
      rw [h.esp] at hin
      exact hb (((inSpan_iff_below (by decide)).mp hin).of_sub (by omega))
    exact (Memory.store32_of_not_inSpan _ _ hout).trans
      (h.mem b fun hin => hb (hin.mono (by omega)))

/-- `handle_syscall` has pushed ten words where it compares the number. -/
theorem pushed_saveAllSys (x : Cpu) : Pushed x.esp 40 x.mem (saveAllSys (x.pushl .eax)) := by
  have h0 : Pushed x.esp 0 x.mem x := ⟨(BitVec.sub_zero _).symm, fun _ _ => rfl⟩
  have h4 := h0.push (x.reg .eax) (by decide)
  have h4' : Pushed x.esp 4 x.mem { x.pushl .eax with df := false } := ⟨h4.esp, h4.mem⟩
  exact (((((((((h4'.push _ (by decide)).push _ (by decide)).push _ (by decide)).push _
    (by decide)).push _ (by decide)).push _ (by decide)).push _ (by decide)).push _
    (by decide)).push _ (by decide))

theorem pushed_enterHandler {H : HieUnix.Handlers} (h : Pushed top n m x) (hn : n + 16 < 2 ^ 32) :
    Pushed top (n + 16) m (enterHandler H i x) :=
  (((h.push _ (by omega)).push _ (by omega)).push _ (by omega)).push _ hn

/-- Outside the ten saved words `resume_userspace` changes no byte. -/
theorem mem_resumeUserspace (hx : x.esp = top - BitVec.ofNat 32 40) {b : Word}
    (hb : ¬ Below top 40 b) : (resumeUserspace x).mem b = x.mem b := by
  have hforty : BitVec.ofNat 32 40 = 40 := rfl
  show (x.mem.store32 (x.esp + 24) (x.reg .eax)) b = x.mem b
  refine Memory.store32_of_not_inSpan _ _ fun hin => hb ?_
  rw [hx, hforty] at hin
  unfold InSpan at hin
  unfold Below
  bv_omega

end

/-! ## The saved registers -/

/-- The registers that the program gets back: the result of a system call is in `%eax`. -/
def Way.result (w : Way) (c r : Core Reg) : Reg → Word :=
  match w with
  | call => update c.reg .eax (r.reg .eax)
  | _ => c.reg

/-- What the stub leaves when it calls the C function at `E`. -/
structure Stub (R : Way → Word) (w : Way) (e E : Core Reg) : Prop where
  esp : E.esp = e.esp - BitVec.ofNat 32 (w.size + 4)
  retAddr : E.mem.load32 E.esp = R w
  cs : E.cs = e.cs
  ss : E.ss = e.ss
  ds : E.ds = e.ds
  es : E.es = e.es
  mem : ∀ b, ¬ Below e.esp (w.size + 4) b → E.mem b = e.mem b

/-- A stub that saves `n` words and calls. -/
theorem Saves.stub {save restore : Core Reg → Core Reg} {words : Core Reg → List Word} {n : ℕ}
    (hS : Saves save restore words n) (hn : 4 * n = w.size) (e : Core Reg)
    (hE : E = (save e).push (R w)) : Stub R w e E := by
  have hsize : w.size ≤ 52 := by cases w <;> decide
  obtain ⟨hesp, -, hcs, hss, hds, hes, hmem⟩ := hS.spec (by omega) e
  have hpush : (save e).esp - 4 = e.esp - BitVec.ofNat 32 (w.size + 4) := by
    rw [hesp, hn, BitVec.ofNat_add]
    show e.esp - BitVec.ofNat 32 w.size - 4 = e.esp - (BitVec.ofNat 32 w.size + 4)
    bv_omega
  subst hE
  refine ⟨hpush, Memory.load32_store32_self _ _ _, hcs, hss, hds, hes, fun b hb => ?_⟩
  have hout : ¬ InSpan b ((save e).esp - 4) 4 := by
    intro hin
    rw [hesp, hn] at hin
    exact hb (((inSpan_iff_below (n := 4) (by decide)).mp hin).of_sub (by omega))
  exact (Core.mem_push _ _ hout).trans (hmem b fun h => hb (h.mono (by omega)))

theorem Way.stub (w : Way) (R : Way → Word) (e : Core Reg) : Stub R w e (w.enter R e) := by
  cases w with
  | tick => exact saves_pit.stub rfl e rfl
  | key => exact saves_saveAll.stub rfl e rfl
  | call =>
    have hpush := pushed_enterHandler (H := ⟨fun _ x => x, fun _ => R call⟩) (i := .execute)
      (pushed_saveAllSys (cpuOf e)) (by decide)
    have hret : (enterHandler ⟨fun _ x => x, fun _ => R call⟩ .execute
        (saveAllSys ((cpuOf e).pushl .eax))).top = R call := Memory.load32_store32_self _ _ _
    have hds : (enterHandler ⟨fun _ x => x, fun _ => R call⟩ .execute
        (saveAllSys ((cpuOf e).pushl .eax))).ds = e.ds := rfl
    have hes : (enterHandler ⟨fun _ x => x, fun _ => R call⟩ .execute
        (saveAllSys ((cpuOf e).pushl .eax))).es = e.es := rfl
    rw [Way.enter]
    generalize enterHandler _ .execute (saveAllSys ((cpuOf e).pushl .eax)) = x
      at hpush hret hds hes ⊢
    exact ⟨hpush.esp, hret, rfl, rfl, hds, hes, hpush.mem⟩

/-- The stub at its `iret`, when the C function has returned at `r`: the registers are those saved
at `e`. -/
structure Restores (w : Way) (e r r' : Core Reg) : Prop where
  reg : r'.reg = w.result e r
  esp : r'.esp = e.esp
  cs : r'.cs = r.cs
  ss : r'.ss = r.ss
  ds : r'.ds = e.ds
  es : r'.es = e.es
  mem : ∀ b, ¬ Below e.esp w.size b → r'.mem b = r.mem b

theorem Saves.restores {save restore : Core Reg → Core Reg} {words : Core Reg → List Word} {n : ℕ}
    (hS : Saves save restore words n) (hn : 4 * n = w.size) (hw : w ≠ .call)
    (hE : E = (save e).push (R w)) (hesp : r.esp = E.esp + 4) (hds : r.ds = e.ds)
    (hes : r.es = e.es) (hsaved : ∀ b, Below e.esp w.size b → r.mem b = E.mem b) :
    Restores w e r (restore r) := by
  have hsize : w.size ≤ 52 := by cases w <;> decide
  obtain ⟨hesp', hstack, -⟩ := hS.spec (by omega) e
  have hresp : r.esp = (save e).esp := by
    rw [hesp, hE, Core.esp_push]
    exact BitVec.sub_add_cancel _ _
  have hwords : r.stack n = words e := by
    rw [← hstack, Core.stack, Core.stack, hresp]
    refine Memory.words_congr (by omega) fun b hb => ?_
    have hb' : Below e.esp w.size b := by
      rw [hesp', hn] at hb
      exact (inSpan_iff_below (by omega)).mp hb
    rw [hsaved b hb', hE]
    refine Core.mem_push _ _ fun hin => ?_
    unfold InSpan at hb hin
    bv_omega
  obtain ⟨flags, hrestore⟩ := hS.restore e r hwords
  have hresult : w.result e r = e.reg := by
    cases w with
    | call => exact absurd rfl hw
    | _ => rfl
  rw [hrestore]
  refine ⟨hresult.symm, ?_, rfl, rfl, hds, hes, fun _ _ => rfl⟩
  show r.esp + BitVec.ofNat 32 (4 * n) = e.esp
  rw [hresp, hesp', BitVec.sub_add_cancel]

/-- A system call is restored from its fifteen words. -/
theorem restores_call (hE : E = Way.call.enter R e) (hesp : r.esp = E.esp + 4)
    (hsaved : ∀ b, Below (e.esp + 20) 72 b → r.mem b = E.mem b) :
    Restores .call e r (withCpu r (retFromSyscalls (cpuOf r))) := by
  have hsave := esp_saveAllSys (cpuOf e)
  have hargs := esp_enterHandler ⟨fun _ x => x, fun _ => R .call⟩ .execute
    (saveAllSys ((cpuOf e).pushl .eax))
  have hwords := words_enterHandler ⟨fun _ x => x, fun _ => R .call⟩ .execute
    (saveAllSys ((cpuOf e).pushl .eax)) (n := 15) (by decide)
  have hstack := stack_saveAllSys (cpuOf e)
  rw [Way.enter] at hE
  generalize saveAllSys ((cpuOf e).pushl .eax) = x at hsave hargs hwords hstack hE
  generalize enterHandler ⟨fun _ x => x, fun _ => R .call⟩ .execute x = X at hargs hwords hE
  subst hE
  change r.esp = X.esp + 4 at hesp
  change ∀ b, Below (e.esp + 20) 72 b → r.mem b = X.mem b at hsaved
  change x.esp = e.esp - 40 at hsave
  have hrargs : ((cpuOf r).addEsp 12).esp = X.esp + 16 := by
    show r.esp + 12 = X.esp + 16
    rw [hesp]
    bv_omega
  -- the three arguments are above the return address, the frame above them
  have hframe : ((cpuOf r).addEsp 12).stack 15 = savedFrame (cpuOf e) (e.reg .eax) := by
    rw [Cpu.stack, hrargs]
    refine (Memory.words_congr (by decide) fun b hb => ?_).trans (hwords.trans hstack)
    refine hsaved b ?_
    rw [hargs, hsave] at hb
    unfold InSpan at hb
    unfold Below
    bv_omega
  have hresp : ((cpuOf r).addEsp 12).esp = (cpuOf e).esp - 40 := by
    rw [hrargs, hargs]
    exact hsave
  obtain ⟨hrest, heax⟩ := resumeUserspace_of_savedFrame hframe hresp
  constructor
  · funext y
    by_cases hy : y = .eax
    · rw [hy]
      show _ = update e.reg .eax (r.reg .eax) .eax
      rw [update_self]
      exact heax
    · show _ = update e.reg .eax (r.reg .eax) y
      rw [update_of_ne hy]
      exact hrest.reg y hy
  · exact hrest.esp
  · rfl
  · rfl
  · exact hrest.ds
  · exact hrest.es
  · intro b hb
    have hforty : ((cpuOf r).addEsp 12).esp = e.esp - BitVec.ofNat 32 40 := hresp
    have hmem := mem_resumeUserspace hforty (b := b) fun h => hb (h.mono (by decide))
    exact hmem

/-- **Each stub** gives back what it has saved. -/
theorem Way.restores (w : Way) (hE : E = w.enter R e) (hesp : r.esp = E.esp + 4)
    (hds : r.ds = e.ds) (hes : r.es = e.es)
    (hsaved : ∀ b, Below e.esp w.size b → r.mem b = E.mem b)
    (hframe : w = .call → ∀ b, Below (e.esp + 20) 72 b → r.mem b = E.mem b) :
    ∃ r', w.leave T r = iret T r' ∧ Restores w e r r' := by
  cases w with
  | tick =>
    obtain ⟨h1, h2, h3, h4, h5, h6, h7⟩ := saves_pit.restores (w := .tick) rfl (by decide) hE hesp
      hds hes hsaved
    exact ⟨_, rfl, h1, h2, h3, h4, h5, h6, h7⟩
  | key => exact ⟨_, rfl, saves_saveAll.restores rfl (by decide) hE hesp hds hes hsaved⟩
  | call => exact ⟨_, rfl, restores_call hE hesp (hframe rfl)⟩

/-- The bytes of the frame of the processor and of the saved registers. -/
def Way.used (w : Way) (c : Core Reg) : ℕ := 4 * frameWords c + w.size

theorem Way.used_le (w : Way) (c : Core Reg) : w.used c ≤ 72 := by
  have hwords := frameWords_le c
  unfold Way.used
  cases w <;> · simp only [Way.size]; omega

@[simp] theorem stackTop_next (S : Symbols) (w : Way) (c : Core Reg) :
    stackTop S (w.next c) = stackTop S c := by
  cases w <;> rfl

@[simp] theorem frameWords_next (w : Way) (c : Core Reg) :
    frameWords (w.next c) = frameWords c := by
  cases w <;> rfl

/-- In the kernel's segments, with those of the program for data. -/
structure InKernel (c : Core Reg) : Prop where
  cs : c.cs = kernelCs
  ss : c.ss = kernelDs
  ds : c.ds = userDs
  es : c.es = userDs

theorem Enters.inKernel (h : Enters S w c e) : InKernel e := by
  obtain ⟨hent, hcs, hss⟩ := h.entered
  have hds := hent.ds
  have hes := hent.es
  rw [Way.ds_next] at hds
  rw [Way.es_next] at hes
  exact ⟨hcs, hss, hds.trans h.runs.ds, hes.trans h.runs.es⟩

theorem Enters.esp (h : Enters S w c e) :
    e.esp = stackTop S c - BitVec.ofNat 32 (4 * frameWords c) := by
  obtain ⟨hent, -⟩ := h.entered
  have hesp := hent.esp
  rw [frameWords_next] at hesp
  rw [hesp, ← stackTop_next S w c]
  rfl

/-- **The way back.** When the C function has returned and the stack above it is as the stub left
it, the program goes on with its registers, in user mode or in the kernel. -/
theorem Enters.returns (h : Enters S w c e) (hE : E = w.enter R e) (hesp : r.esp = E.esp + 4)
    (hr : InKernel r) (htab : Tabled S r.mem)
    (htables : ∀ b, S.InTables b → ¬ Below (stackTop S c) (w.used c) b)
    (hsaved : ∀ b, Below (stackTop S c) (w.used c) b → r.mem b = E.mem b) :
    w.leave S.registers r
        = { w.next c with reg := w.result c r, mem := (w.leave S.registers r).mem } ∧
      ∀ b, ¬ Below (stackTop S c) (w.used c) b → (w.leave S.registers r).mem b = r.mem b := by
  obtain ⟨hleads, hsoft⟩ := h.runs.leads
  obtain ⟨hent, -⟩ := h.entered
  have hkernel := h.inKernel
  have htop := h.esp
  have hwords := frameWords_le c
  have hsize := w.used_le c
  have hpos := frameWords_pos c
  unfold Way.used at *
  have hlow : ∀ b, Below e.esp w.size b → Below (stackTop S c) (4 * frameWords c + w.size) b := by
    intro b hb
    rw [htop] at hb
    exact hb.of_sub (by omega)
  have hcall : w = .call → ∀ b, Below (e.esp + 20) 72 b → r.mem b = E.mem b := by
    rintro rfl b hb
    have hcpl : c.cpl = 3 := h.runs.level.resolve_right fun h => h.1 rfl
    have hfive : frameWords c = 5 := if_neg (by rw [hcpl]; decide)
    refine hsaved b ?_
    rw [hfive]
    rw [hfive] at htop
    have hback : e.esp + 20 = stackTop S c := by
      rw [htop]
      exact BitVec.sub_add_cancel _ _
    rw [hback] at hb
    exact hb
  -- the stub pops its words
  obtain ⟨r', hleave, hback⟩ := w.restores (T := S.registers) hE hesp (hr.ds.trans hkernel.ds.symm)
    (hr.es.trans hkernel.es.symm) (fun b hb => hsaved b (hlow b hb)) hcall
  have hmem : ∀ b, ¬ Below (stackTop S c) (4 * frameWords c + w.size) b → r'.mem b = r.mem b :=
    fun b hb => hback.mem b fun h => hb (hlow b h)
  have htab' : Tabled S r'.mem := htab.congr fun b hb => hmem b (htables b hb)
  -- the frame of the processor is above what the stub and the function used
  have hframe : r'.stack (frameWords (w.next c)) = e.stack (frameWords (w.next c)) := by
    rw [frameWords_next, Core.stack, Core.stack, hback.esp]
    refine Memory.words_congr (by omega) fun b hb => ?_
    have habove : Below (stackTop S c) (4 * frameWords c) b := by
      rw [htop] at hb
      exact (inSpan_iff_below (by omega)).mp hb
    have hnot : ¬ Below e.esp (w.size + 4) b := not_below_of_inSpan hb (by omega)
    rw [hback.mem b fun h => hnot (h.mono (by omega)), hsaved b (habove.mono (by omega)), hE,
      (w.stub R e).mem b hnot]
  have hkeep : ∀ s ∈ [(w.next c).ds, (w.next c).es],
      keepSegment S.registers r'.mem (w.next c).cpl s = s := by
    intro s hs
    rw [Way.ds_next, Way.es_next, h.runs.ds, h.runs.es] at hs
    have hs' : s = userDs := by simpa using hs
    rw [hs']
    exact keepSegment_userDs htab' _
  have hiret := iret_of_entered hleads hsoft h.raised
    ⟨hback.esp, hback.cs.trans (hr.cs.trans hkernel.cs.symm),
      hback.ss.trans (hr.ss.trans hkernel.ss.symm), hframe⟩
    (hback.ds.trans hent.ds) (hback.es.trans hent.es) hkeep
  have hereg : e.reg = c.reg := hent.reg.trans (Way.reg_next w c)
  have hresult : w.result e r = w.result c r := by
    unfold Way.result
    rw [hereg]
  rw [hleave, hiret, hback.reg, hresult]
  exact ⟨rfl, hmem⟩

/-! ## The assembly -/

/-- `__switch_to(prev, next)`, up to its jump. -/
def switchStacks (switched prev next : Word) (c : Core Reg) : Core Reg :=
  let c := pushl (pushfl c) .ebp
  let c := { c with mem := c.mem.store32 (prev + 188) c.esp }
  let c := { c with esp := c.mem.load32 (next + 188) }
  let c := { c with mem := c.mem.store32 (prev + 192) (c.reg .ebp) }
  let c := { c with mem := c.mem.store32 (prev + 184) switched }
  let c := { c with reg := update c.reg .ebp (c.mem.load32 (next + 192)) }
  { c with eip := c.mem.load32 (next + 184) }

/-- `__switch_to` from its label on. -/
def switchBack (c : Core Reg) : Core Reg := popfl (popl c .ebp)

/-- `tss.esp0 = x`. -/
def setTssEsp0 (S : Symbols) (x : Word) (c : Core Reg) : Core Reg :=
  { c with mem := c.mem.store32 (S.tss + 4) x }

/-- `tssESP` of a new control block, from `initialize_pcb`. -/
def initTssEsp (i : Slot) (c : Core Reg) : Core Reg :=
  { c with mem := c.mem.store32 (pcbAddr i + 180) (getKstackAddr i) }

/-- The stores of `execute` in the block of a child with a parent: `old_esp`, `old_ebp`, `old_eip`
and `old_tssESP`. -/
def storeOld (S : Symbols) (retHere child : Word) (c : Core Reg) : Core Reg :=
  let m := ((c.mem.store32 (child + 140) c.esp).store32 (child + 152) (c.reg .ebp)).store32
    (child + 144) retHere
  { c with mem := m.store32 (child + 164) (m.load32 (S.tss + 4)) }

/-- Its stores in that of the process that waits: `esp`, `ebp` and `eip`. -/
def storeContext (retHere prev : Word) (c : Core Reg) : Core Reg :=
  let m := (c.mem.store32 (prev + 188) c.esp).store32 (prev + 192) (c.reg .ebp)
  { c with mem := m.store32 (prev + 184) retHere }

/-- What `execute` stores for the program in slot `j`. The interrupts of the program come on its
own stack. -/
def executeStores (S : Symbols) (retHere prev : Word) (j : Slot) (nested : Bool) (c : Core Reg) :
    Core Reg :=
  let c := initTssEsp j c
  let c := if nested then storeOld S retHere (pcbAddr j) c else c
  setTssEsp0 S (getKstackAddr j) (storeContext retHere prev c)

/-- What `do_handle_pit` does at the switch to the process in slot `j`. -/
def pitSwitch (S : Symbols) (switched : Word) (j : Slot) (c : Core Reg) : Core Reg :=
  switchStacks switched (c.esp &&& pcbMask) (pcbAddr j)
    (setTssEsp0 S (c.mem.load32 (pcbAddr j + 180)) c)

/-- What `halt` stores, and its jump into `execute`. -/
def haltJump (S : Symbols) (retHere curr : Word) (c : Core Reg) : Core Reg :=
  let c := setTssEsp0 S (c.mem.load32 (curr + 164)) c
  { c with
    esp := c.mem.load32 (curr + 140)
    reg := update c.reg .ebp (c.mem.load32 (curr + 152))
    eip := retHere }

/-! ## The C code -/

/-- The C code around the assembly and the stores, compiled: `do_handle_pit` up to the switch to a
process and after it, the functions of a way up to the stores of `execute`, `execute` from there to
the first instruction of the program in a slot and from `ret_here` on, and `halt` up to its jump.
`halt` of a program without a parent executes the shell again: `toRestart` comes to the stores of
that `execute`, and `restart` to the first instruction. -/
structure KernelCode where
  retAddr : Way → Word
  switched : Word
  retHere : Word
  toSwitch : Slot → Core Reg → Core Reg → Prop
  fromSwitch : Core Reg → Core Reg → Prop
  toStart : Way → Core Reg → Core Reg → Prop
  start : Slot → Core Reg → Core Reg → Prop
  fromStart : Core Reg → Core Reg → Prop
  toHalt : Slot → Core Reg → Core Reg → Prop
  toRestart : Slot → Core Reg → Core Reg → Prop
  restart : Slot → Slot → Core Reg → Core Reg → Prop

/-- `tss.esp0`. -/
def TssWord (S : Symbols) (b : Word) : Prop := InSpan b (S.tss + 4) 4

/-- The words of a control block that `__switch_to` and `execute` store in it when its process
waits. -/
def NewWord (i : Slot) (b : Word) : Prop := InSpan b (pcbAddr i + 184) 12

/-- The words that `execute` stores in it for its process: those for the parent, and `tssESP`. -/
def StartWord (i : Slot) (b : Word) : Prop :=
  InSpan b (pcbAddr i + 140) 28 ∨ InSpan b (pcbAddr i + 180) 4

/-- The kernel stack of a process, behind its control block. -/
def KernelStack (i : Slot) (b : Word) : Prop := InSpan b (pcbAddr i + 328) 7864

/-- A function entered at `E` has come to `p`, with `k` bytes of the stack in use. -/
structure Within (KernelData : Word → Prop) (depth k : ℕ) (E p : Core Reg) : Prop where
  esp : p.esp = E.esp + 4 - BitVec.ofNat 32 k
  used : 4 ≤ k ∧ k + 8 ≤ depth
  cs : p.cs = E.cs
  ss : p.ss = E.ss
  ds : p.ds = E.ds
  es : p.es = E.es
  mem : ∀ b, ¬ KernelData b → ¬ Below (E.esp + 4) depth b → p.mem b = E.mem b

/-- A function entered at `E`, continued at `q`, has returned at `r`. -/
structure ReturnedTo (KernelData : Word → Prop) (depth : ℕ) (E q r : Core Reg) : Prop where
  esp : r.esp = E.esp + 4
  eip : r.eip = q.mem.load32 E.esp
  cs : r.cs = q.cs
  ss : r.ss = q.ss
  ds : r.ds = q.ds
  es : r.es = q.es
  mem : ∀ b, ¬ KernelData b → ¬ Below (E.esp + 4) depth b → r.mem b = q.mem b

/-- What the compiler promises. `ready w E k ebp m`: the function of way `w`, entered at `E`, can be
continued with `k` bytes of the stack in use and with `ebp` when the memory is `m`; that depends on
these bytes only. The code stores to the kernel's data, to which the programs' pages belong, and to
its stack; the words of the switch are stored by the statements above only. -/
structure Compiled (S : Symbols) (C : KernelCode) (KernelData : Word → Prop) (depth : ℕ)
    (ready : Way → Core Reg → ℕ → Word → Memory → Prop) : Prop where
  retAddr : ∀ w w', C.retAddr w = C.retAddr w' → w = w'
  labels : C.switched ≠ C.retHere
  data : ∀ b, KernelData b → ¬ S.InTables b ∧ ¬ TssWord S b ∧
    ∀ i, ¬ NewWord i b ∧ ¬ StartWord i b ∧ ¬ KernelStack i b
  tables : ∀ b, S.InTables b ∨ TssWord S b → ∀ i, ¬ InSpan b (pcbAddr i) 8192
  fits : 72 + depth ≤ 7860
  frame : ∀ w E k y m m', ready w E k y m →
    (∀ b, Below (E.esp + 4) k b → m' b = m b) → ready w E k y m'
  address : ∀ w E k y m, ready w E k y m → m.load32 E.esp = E.mem.load32 E.esp
  toSwitch : ∀ j E p, C.toSwitch j E p →
    ∃ k, Within KernelData depth k E p ∧ ready .tick E k (p.reg .ebp) p.mem
  fromSwitch : ∀ E k q r, ready .tick E k (q.reg .ebp) q.mem →
    q.esp = E.esp + 4 - BitVec.ofNat 32 k → C.fromSwitch q r → ReturnedTo KernelData depth E q r
  toStart : ∀ w E p, C.toStart w E p → ∃ k, Within KernelData depth k E p
  start : ∀ w E p k m j c', C.toStart w E p → Within KernelData depth k E p →
    (∀ b, Below (E.esp + 4) k b → m b = p.mem b) → C.start j { p with mem := m } c' →
    (c'.cpl = 3 ∧ c'.ds = userDs ∧ c'.es = userDs) ∧ ready w E k (p.reg .ebp) c'.mem ∧
      ∀ b, ¬ KernelData b → ¬ Below (E.esp + 4) depth b → c'.mem b = m b
  fromStart : ∀ w E k q r, w ≠ .tick → ready w E k (q.reg .ebp) q.mem →
    q.esp = E.esp + 4 - BitVec.ofNat 32 k → C.fromStart q r → ReturnedTo KernelData depth E q r
  toHalt : ∀ i c p, C.toHalt i c p → InKernel p ∧
    ∀ b, ¬ KernelData b → ¬ KernelStack i b → p.mem b = c.mem b
  toRestart : ∀ i c p, C.toRestart i c p → InSpan p.esp (pcbAddr i) 8192 ∧
    ∀ b, ¬ KernelData b → ¬ KernelStack i b → p.mem b = c.mem b
  restart : ∀ i j p c, C.restart i j p c → (c.cpl = 3 ∧ c.ds = userDs ∧ c.es = userDs) ∧
    ∀ b, ¬ KernelData b → ¬ KernelStack i b → c.mem b = p.mem b

/-! ## A process that waits -/

/-- A process that waits: the way it came, the program it left, the entry of its C function, the
bytes of the stack in use below it, its `%ebp`, and the memory when it began to wait. -/
structure Waiting where
  way : Way
  user : Core Reg
  entry : Core Reg
  used : ℕ
  ebp : Word
  mem : Memory

namespace Waiting

/-- The stack pointer of its C function. -/
def esp (w : Waiting) : Word := w.entry.esp + 4 - BitVec.ofNat 32 w.used

/-- The stack pointer in its control block: `__switch_to` has pushed two words. -/
def stored (w : Waiting) : Word :=
  match w.way with
  | .tick => w.esp - 8
  | _ => w.esp

/-- Where it goes on. -/
def label (C : KernelCode) (w : Waiting) : Word :=
  match w.way with
  | .tick => C.switched
  | _ => C.retHere

/-- Its stack. -/
def Held (S : Symbols) (w : Waiting) (b : Word) : Prop :=
  Below (stackTop S w.user) (w.way.used w.user + (w.used + 8)) b

/-- The program as it was, but for the result of a system call, with the memory of `c`. -/
def back (w : Waiting) (c : Core Reg) : Core Reg :=
  { w.way.next w.user with reg := w.way.result w.user c, mem := c.mem }

theorem stored_of_ne {w : Waiting} (h : w.way ≠ .tick) : w.stored = w.esp := by
  unfold stored
  cases hw : w.way with
  | tick => exact absurd hw h
  | _ => rfl

theorem label_of_ne {w : Waiting} (C : KernelCode) (h : w.way ≠ .tick) :
    w.label C = C.retHere := by
  unfold label
  cases hw : w.way with
  | tick => exact absurd hw h
  | _ => rfl

end Waiting

/-- The kernel stack of slot `i` has room for the next interrupt or call and its function. -/
def Room (S : Symbols) (depth : ℕ) (i : Slot) (c : Core Reg) : Prop :=
  ∀ b, Below (stackTop S c) (72 + depth) b → KernelStack i b

/-- The process in slot `i` came to wait as `w` says. -/
structure Waits (S : Symbols) (C : KernelCode) (depth : ℕ)
    (ready : Way → Core Reg → ℕ → Word → Memory → Prop) (i : Slot) (w : Waiting) : Prop where
  entered : ∃ e, Enters S w.way w.user e ∧ w.entry = w.way.enter C.retAddr e
  ready : ready w.way w.entry w.used w.ebp w.mem
  saved : ∀ b, Below (stackTop S w.user) (w.way.used w.user) b → w.mem b = w.entry.mem b
  pushed : w.way = .tick → w.mem.load32 (w.esp - 8) = w.ebp
  room : Room S depth i w.user
  used : 4 ≤ w.used ∧ w.used + 8 ≤ depth

/-- Its stack and its control block are in `m` as they were then. -/
structure Holds (S : Symbols) (C : KernelCode) (i : Slot) (w : Waiting) (m : Memory) : Prop where
  held : ∀ b, w.Held S b → m b = w.mem b
  esp : m.load32 (pcbAddr i + 188) = w.stored
  ebp : m.load32 (pcbAddr i + 192) = w.ebp
  eip : m.load32 (pcbAddr i + 184) = w.label C

variable {C : KernelCode} {KernelData : Word → Prop} {depth : ℕ}
  {ready : Way → Core Reg → ℕ → Word → Memory → Prop} {i : Slot} {v : Waiting} {q : Core Reg}
  {m m' : Memory}

/-- The return address is below the saved registers. -/
theorem Enters.entry (h : Enters S w c e) (hE : E = w.enter R e) :
    E.esp + 4 = stackTop S c - BitVec.ofNat 32 (w.used c) := by
  have hesp := (w.stub R e).esp
  have htop := h.esp
  rw [hE, hesp, htop, Way.used, BitVec.ofNat_add, BitVec.ofNat_add]
  show stackTop S c - BitVec.ofNat 32 (4 * frameWords c) - (BitVec.ofNat 32 w.size + 4) + 4 = _
  bv_omega

/-- A byte of a kernel stack is a byte of its page. -/
theorem KernelStack.inPage {b : Word} (h : KernelStack i b) : InSpan b (pcbAddr i) 8192 := by
  unfold KernelStack InSpan at h
  unfold InSpan
  bv_omega

/-- The frame of its C function. -/
theorem Waits.frame_held (hw : Waits S C depth ready i v) (hfits : 72 + depth ≤ 7860)
    (hheld : ∀ b, v.Held S b → m b = v.mem b) {b : Word} (hb : Below (v.entry.esp + 4) v.used b) :
    m b = v.mem b := by
  obtain ⟨e, he, hE⟩ := hw.entered
  have hle := v.way.used_le v.user
  have hused := hw.used
  rw [he.entry hE] at hb
  exact hheld b ((hb.of_sub (by omega)).mono (by omega))

/-- The return address on its stack tells the way. -/
theorem Waits.retAddr (hw : Waits S C depth ready i v) (hC : Compiled S C KernelData depth ready)
    (hheld : ∀ b, v.Held S b → m b = v.mem b) : m.load32 v.entry.esp = C.retAddr v.way := by
  obtain ⟨e, -, hE⟩ := hw.entered
  have hready : ready v.way v.entry v.used v.ebp m :=
    hC.frame _ _ _ _ _ _ hw.ready fun b hb => hw.frame_held hC.fits hheld hb
  have hstub := v.way.stub C.retAddr e
  rw [← hE] at hstub
  rw [hC.address _ _ _ _ _ hready]
  exact hstub.retAddr

/-- **A process that waits** and is continued goes back to its program, which finds its registers,
its flags and its segments as they were. The kernel has stored to its data and to the stack. -/
theorem Waits.resume (hw : Waits S C depth ready i v) (hC : Compiled S C KernelData depth ready)
    (hheld : ∀ b, v.Held S b → q.mem b = v.mem b) (hesp : q.esp = v.esp)
    (hebp : q.reg .ebp = v.ebp) (hq : InKernel q) (htab : Tabled S q.mem)
    (hrun : v.way = .tick ∧ C.fromSwitch q r ∨ v.way ≠ .tick ∧ C.fromStart q r)
    (heip : r.eip = C.retAddr w) :
    w.leave S.registers r = v.back (w.leave S.registers r) ∧
      ∀ b, ¬ KernelData b → ¬ KernelStack i b → (w.leave S.registers r).mem b = q.mem b := by
  obtain ⟨e, he, hE⟩ := hw.entered
  have hfits := hC.fits
  have hle := v.way.used_le v.user
  obtain ⟨hused4, hused⟩ := hw.used
  have hentry := he.entry hE
  -- what is below the entry of the function is on the stack of the process
  have hlow : ∀ {n b}, n ≤ depth → Below (v.entry.esp + 4) n b →
      Below (stackTop S v.user) (v.way.used v.user + n) b := by
    intro n b hn hb
    rw [hentry] at hb
    exact hb.of_sub (by omega)
  have hready : ready v.way v.entry v.used v.ebp q.mem :=
    hC.frame _ _ _ _ _ _ hw.ready fun b hb => hw.frame_held hfits hheld hb
  -- the C function returns over its frame, which is as it was
  have hret : ReturnedTo KernelData depth v.entry q r := by
    rw [← hebp] at hready
    obtain ⟨hway, hfrom⟩ | ⟨hway, hfrom⟩ := hrun
    · rw [hway] at hready
      exact hC.fromSwitch _ _ _ _ hready hesp hfrom
    · exact hC.fromStart _ _ _ _ _ hway hready hesp hfrom
  obtain rfl : w = v.way := by
    refine hC.retAddr _ _ ?_
    rw [← heip, hret.eip, hw.retAddr hC hheld]
  have hnot : ∀ b, KernelStack i b → ¬ KernelData b := fun b hb h =>
    ((hC.data b h).2.2 i).2.2 hb
  have hstack : ∀ b, Below (stackTop S v.user) (v.way.used v.user) b → KernelStack i b :=
    fun b hb => hw.room b (hb.mono (by omega))
  have htables : ∀ b, S.InTables b → ¬ KernelStack i b := fun b hb h =>
    hC.tables b (.inl hb) i h.inPage
  have hkept : ∀ b, ¬ KernelData b → ¬ KernelStack i b → r.mem b = q.mem b := fun b hb hk =>
    hret.mem b hb fun h => hk (hw.room b ((hlow le_rfl h).mono (by omega)))
  have hsaved : ∀ b, Below (stackTop S v.user) (v.way.used v.user) b →
      r.mem b = v.entry.mem b := by
    intro b hb
    have hout : ¬ Below (v.entry.esp + 4) depth b := by
      rw [hentry]
      exact hb.not_sub (by omega)
    rw [hret.mem b (hnot b (hstack b hb)) hout, hheld b (hb.mono (by omega)), hw.saved b hb]
  obtain ⟨hleave, hmem⟩ := he.returns hE hret.esp
    ⟨hret.cs.trans hq.cs, hret.ss.trans hq.ss, hret.ds.trans hq.ds, hret.es.trans hq.es⟩
    (htab.congr fun b hb => hkept b (fun h => (hC.data b h).1 hb) (htables b hb))
    (fun b hb h => htables b hb (hstack b h)) hsaved
  refine ⟨?_, fun b hb hk => ?_⟩
  · have hresult : v.way.result v.user (v.way.leave S.registers r) = v.way.result v.user r := by
      cases hway : v.way with
      | call =>
        rw [hway] at hleave
        rw [hleave]
        show update v.user.reg .eax (update v.user.reg .eax (r.reg .eax) .eax) = _
        rw [update_self]
        rfl
      | _ => rfl
    rw [Waiting.back, hresult]
    exact hleave
  · exact (hmem b fun h => hk (hstack b h)).trans (hkept b hb hk)

end HieUnix.Interrupt
