import HieUnix.Lib.Memory

/-!
# The system call entry

`handle_syscall` of `syscall_entry.S`, as transformers of the registers and the memory: the gate of
`int 0x80` has switched to the kernel stack and pushed the five words that `iret` pops. The stub
saves the registers, calls the function of `sys_call_table` that `%eax` names on the saved `%ebx`,
`%ecx` and `%edx`, and restores the registers. Both exits share the `movl` that stores `%eax` into
the saved frame.

The C functions are a parameter with the calling convention as its hypothesis.
-/

namespace HieUnix

open Function

/-! ## Registers -/

/-- The general registers, without the stack pointer. -/
inductive Reg
  | eax
  | ebx
  | ecx
  | edx
  | esi
  | edi
  | ebp
deriving DecidableEq, Repr

/-- The registers the stub works on, with the direction flag and the memory. -/
structure Cpu where
  reg : Reg → Word
  esp : Word
  ds : BitVec 16
  es : BitVec 16
  df : Bool
  mem : Memory

namespace Cpu

/-- A word pushed. -/
def push (c : Cpu) (v : Word) : Cpu :=
  { c with esp := c.esp - 4, mem := c.mem.store32 (c.esp - 4) v }

/-- `pushl` of a register. -/
def pushl (c : Cpu) (r : Reg) : Cpu := c.push (c.reg r)

/-- `push %ds`: four bytes of the stack, the upper two zero. -/
def pushDs (c : Cpu) : Cpu := c.push (c.ds.setWidth 32)

/-- `push %es`. -/
def pushEs (c : Cpu) : Cpu := c.push (c.es.setWidth 32)

@[simp] theorem reg_pushl (c : Cpu) (r : Reg) : (c.pushl r).reg = c.reg := rfl
@[simp] theorem reg_pushDs (c : Cpu) : c.pushDs.reg = c.reg := rfl
@[simp] theorem reg_pushEs (c : Cpu) : c.pushEs.reg = c.reg := rfl

@[simp] theorem esp_pushl (c : Cpu) (r : Reg) : (c.pushl r).esp = c.esp - 4 := rfl
@[simp] theorem esp_pushDs (c : Cpu) : c.pushDs.esp = c.esp - 4 := rfl
@[simp] theorem esp_pushEs (c : Cpu) : c.pushEs.esp = c.esp - 4 := rfl

/-- The word that a pop reads. -/
def top (c : Cpu) : Word := c.mem.load32 c.esp

/-- `popl` of a register. -/
def popl (c : Cpu) (r : Reg) : Cpu := { c with reg := update c.reg r c.top, esp := c.esp + 4 }

/-- `pop %ds`. -/
def popDs (c : Cpu) : Cpu := { c with ds := c.top.setWidth 16, esp := c.esp + 4 }

/-- `pop %es`. -/
def popEs (c : Cpu) : Cpu := { c with es := c.top.setWidth 16, esp := c.esp + 4 }

/-- The `n` words on the stack. -/
def stack (c : Cpu) (n : ℕ) : List Word := c.mem.words c.esp n

end Cpu

/-- `SAVE_ALL_SYS`. -/
def saveAllSys (c : Cpu) : Cpu :=
  { c with df := false }
    |>.pushEs |>.pushDs
    |>.pushl .eax |>.pushl .ebp |>.pushl .edi |>.pushl .esi |>.pushl .edx |>.pushl .ecx
    |>.pushl .ebx

/-- `RESTORE_ALL_SYS`. -/
def restoreAllSys (c : Cpu) : Cpu :=
  c |>.popl .ebx |>.popl .ecx |>.popl .edx |>.popl .esi |>.popl .edi |>.popl .ebp |>.popl .eax
    |>.popDs |>.popEs

/-! ## Handlers -/

/-- The functions `syscall_entry.S` calls. -/
inductive Handler
  | halt
  | execute
  | read
  | write
  | open
  | close
  | getargs
  | vidmap
  | setHandler
  | sigreturn
deriving DecidableEq, Repr

/-- `sys_call_table`. -/
def sysCallTable : List Handler :=
  [.halt, .execute, .read, .write, .open, .close, .getargs, .vidmap, .setHandler, .sigreturn]

/-- `ENOSYS`, as the value stored. -/
abbrev enosys : Word := -1

/-- The C functions, from their first instruction to the one after the call, and the address of
the instruction after each call. -/
structure Handlers where
  run : Handler → Cpu → Cpu
  retAddr : Handler → Word

/-- The calling convention: a function of three arguments, entered at `c`, returns at `c'`. It
pops the return address, keeps the callee-saved registers, and leaves what its caller has on the
stack above the arguments: the ten saved words and the five of the interrupt. -/
structure Cdecl (c c' : Cpu) : Prop where
  esp : c'.esp = c.esp + 4
  saved : ∀ r ∈ [Reg.ebx, .esi, .edi, .ebp], c'.reg r = c.reg r
  frame : ∀ a, InSpan a (c.esp + 16) 60 → c'.mem a = c.mem a

/-- A call of a handler: the three words it finds as its arguments, and what it returned. -/
structure SysCall where
  handler : Handler
  arg1 : Word
  arg2 : Word
  arg3 : Word
  result : Word
deriving DecidableEq, Repr

/-! ## The stub -/

/-- The registers and the memory at `iret`, and the handlers called. -/
structure Exit where
  cpu : Cpu
  calls : List SysCall

/-- `movl %eax, 24(%esp)`, with the value stored as a parameter. -/
def Cpu.storeResult (c : Cpu) (v : Word) : Cpu := { c with mem := c.mem.store32 (c.esp + 24) v }

/-- `add`, of a constant to the stack pointer. -/
def Cpu.addEsp (c : Cpu) (v : Word) : Cpu := { c with esp := c.esp + v }

/-- `resume_userspace`. -/
def resumeUserspace (c : Cpu) : Cpu :=
  (restoreAllSys (c.storeResult (c.reg .eax))).addEsp 4

/-- `ret_from_syscalls`. -/
def retFromSyscalls (c : Cpu) : Cpu := resumeUserspace (c.addEsp 12)

/-- `syscall_invalid`. -/
def syscallInvalid (c : Cpu) : Cpu := resumeUserspace (c.storeResult enosys)

/-- The entry of a handler: the three arguments and the return address are pushed. -/
def enterHandler (H : Handlers) (i : Handler) (c : Cpu) : Cpu :=
  (c |>.pushl .edx |>.pushl .ecx |>.pushl .ebx).push (H.retAddr i)

/-- What a handler found and returned, when it was entered at `c` and returned at `c'`. -/
def sysCall (i : Handler) (c c' : Cpu) : SysCall :=
  ⟨i, c.mem.load32 (c.esp + 4), c.mem.load32 (c.esp + 8), c.mem.load32 (c.esp + 12), c'.reg .eax⟩

/-- `syscall_is_valid`: the jump to the entry at `sys_call_table - 4 + 4 * eax`, and the call
there. A jump outside the table has no meaning here. -/
def syscallIsValid (H : Handlers) (c : Cpu) : Option Exit :=
  match sysCallTable[(c.reg .eax - 1).toNat]? with
  | none => none
  | some i =>
    let e := enterHandler H i c
    let c' := H.run i e
    some ⟨retFromSyscalls c', [sysCall i e c']⟩

/-- The two comparisons of `handle_syscall`: `jb` is unsigned. -/
def compareCall (H : Handlers) (c : Cpu) : Option Exit :=
  if c.reg .eax < 1 then some ⟨syscallInvalid c, []⟩
  else if c.reg .eax < 11 then syscallIsValid H c
  else some ⟨syscallInvalid c, []⟩

/-- `handle_syscall`, up to its `iret`. -/
def handleSyscall (H : Handlers) (c : Cpu) : Option Exit :=
  compareCall H (saveAllSys (c.pushl .eax))

variable {H : Handlers} {c c' : Cpu} {i : Handler}

/-! ## The saved frame -/

/-- A push is a word on top of the stack. -/
theorem Cpu.stack_push (v : Word) {n : ℕ} (hn : 4 * (n + 1) ≤ 2 ^ 32) :
    (c.push v).stack (n + 1) = v :: c.stack n :=
  Memory.words_push c.mem c.esp v hn

/-- The `eax` word of a frame is the seventh. -/
theorem Cpu.stack_storeResult (v : Word) {n : ℕ} (hn : 4 * n ≤ 2 ^ 32) (h : 6 < n) :
    (c.storeResult v).stack n = (c.stack n).set 6 v := by
  have hoff : BitVec.ofNat 32 (4 * 6) = 24 := by decide
  have hset := Memory.words_store32 c.mem c.esp v h hn
  rw [hoff] at hset
  exact hset

/-- What is on the stack while a handler runs: the saved registers, and the words of the interrupt
below them. `eax` is the word that `resume_userspace` overwrites. -/
def savedFrame (c : Cpu) (eax : Word) : List Word :=
  c.reg .ebx :: c.reg .ecx :: c.reg .edx :: c.reg .esi :: c.reg .edi :: c.reg .ebp :: eax ::
    c.ds.setWidth 32 :: c.es.setWidth 32 :: c.reg .eax :: c.stack 5

theorem stack_saveAllSys (c : Cpu) :
    (saveAllSys (c.pushl .eax)).stack 15 = savedFrame c (c.reg .eax) := by
  have horig : ({ c.pushl .eax with df := false } : Cpu).stack 6 = c.reg .eax :: c.stack 5 :=
    Cpu.stack_push (n := 5) (c.reg .eax) (by decide)
  unfold saveAllSys Cpu.pushEs Cpu.pushDs Cpu.pushl at *
  rw [Cpu.stack_push (n := 14) _ (by decide), Cpu.stack_push (n := 13) _ (by decide),
    Cpu.stack_push (n := 12) _ (by decide), Cpu.stack_push (n := 11) _ (by decide),
    Cpu.stack_push (n := 10) _ (by decide), Cpu.stack_push (n := 9) _ (by decide),
    Cpu.stack_push (n := 8) _ (by decide), Cpu.stack_push (n := 7) _ (by decide),
    Cpu.stack_push (n := 6) _ (by decide), horig]
  rfl

/-- The stub changes neither a register nor a byte above the stack pointer before it calls. -/
theorem esp_saveAllSys (c : Cpu) : (saveAllSys (c.pushl .eax)).esp = c.esp - 40 := by
  simp only [saveAllSys, Cpu.esp_pushl, Cpu.esp_pushDs, Cpu.esp_pushEs]
  bv_omega

theorem reg_saveAllSys (c : Cpu) : (saveAllSys (c.pushl .eax)).reg = c.reg := by
  simp only [saveAllSys, Cpu.reg_pushl, Cpu.reg_pushDs, Cpu.reg_pushEs]

/-! ## The shared exit -/

/-- Everything user mode sees at `iret` except `%eax`: the registers, and the frame that `iret`
pops at the same stack pointer. -/
structure Restored (c c' : Cpu) : Prop where
  reg : ∀ r, r ≠ .eax → c'.reg r = c.reg r
  ds : c'.ds = c.ds
  es : c'.es = c.es
  esp : c'.esp = c.esp
  frame : c'.stack 5 = c.stack 5

/-- From the saved frame of `c`, `RESTORE_ALL_SYS` restores the registers of `c`, and takes
`%eax` from the frame. -/
theorem restoreAllSys_of_savedFrame {eax : Word} (hs : c'.stack 15 = savedFrame c eax) :
    (restoreAllSys c').reg = update c.reg .eax eax ∧ (restoreAllSys c').ds = c.ds ∧
      (restoreAllSys c').es = c.es ∧ ((restoreAllSys c').addEsp 4).stack 5 = c.stack 5 := by
  have hs' := hs
  simp only [Cpu.stack, Memory.words, savedFrame, List.cons.injEq] at hs
  obtain ⟨hebx, hecx, hedx, hesi, hedi, hebp, heax, hds, hes, -, -⟩ := hs
  refine ⟨?_, ?_, ?_, ?_⟩
  · funext r
    cases r with
    | eax => exact heax
    | ebx => exact hebx
    | ecx => exact hecx
    | edx => exact hedx
    | esi => exact hesi
    | edi => exact hedi
    | ebp => exact hebp
  · have hpop : (restoreAllSys c').ds = (BitVec.setWidth 32 c.ds).setWidth 16 :=
      congrArg (BitVec.setWidth 16) hds
    rw [hpop, BitVec.setWidth_setWidth_of_le _ (by decide), BitVec.setWidth_eq]
  · have hpop : (restoreAllSys c').es = (BitVec.setWidth 32 c.es).setWidth 16 :=
      congrArg (BitVec.setWidth 16) hes
    rw [hpop, BitVec.setWidth_setWidth_of_le _ (by decide), BitVec.setWidth_eq]
  · show (c'.stack 15).drop 10 = c.stack 5
    rw [hs']
    rfl

/-- From the saved frame of `c`, whatever its `eax` word, the exit restores all that user mode
sees, and returns the value that `%eax` has. -/
theorem resumeUserspace_of_savedFrame {eax : Word} (hs : c'.stack 15 = savedFrame c eax)
    (hesp : c'.esp = c.esp - 40) :
    Restored c (resumeUserspace c') ∧ (resumeUserspace c').reg .eax = c'.reg .eax := by
  have hset : (c'.storeResult (c'.reg .eax)).stack 15 = savedFrame c (c'.reg .eax) := by
    rw [Cpu.stack_storeResult _ (by decide) (by decide), hs]
    rfl
  obtain ⟨hreg, hds, hes, hframe⟩ := restoreAllSys_of_savedFrame hset
  -- ten words are popped or skipped, as many as the stub pushed
  have hesp' : (resumeUserspace c').esp = c.esp := by
    show c'.esp + 4 + 4 + 4 + 4 + 4 + 4 + 4 + 4 + 4 + 4 = c.esp
    rw [hesp]
    bv_omega
  constructor
  · constructor
    · intro r hr
      exact (congrFun hreg r).trans (update_of_ne hr _ _)
    · exact hds
    · exact hes
    · exact hesp'
    · exact hframe
  · exact (congrFun hreg .eax).trans (update_self _ _ _)

/-! ## The two exits -/

/-- An invalid number calls no handler and restores all that user mode sees, but the error code
is overwritten: `%eax` comes back as it was. -/
theorem syscallInvalid_saveAllSys (c : Cpu) :
    Restored c (syscallInvalid (saveAllSys (c.pushl .eax))) ∧
      (syscallInvalid (saveAllSys (c.pushl .eax))).reg .eax = c.reg .eax := by
  have hs : ((saveAllSys (c.pushl .eax)).storeResult enosys).stack 15 = savedFrame c enosys := by
    rw [Cpu.stack_storeResult _ (by decide) (by decide), stack_saveAllSys]
    rfl
  exact resumeUserspace_of_savedFrame hs (esp_saveAllSys c)

/-- A handler is entered with the four words pushed for it above the saved frame. -/
theorem stack_enterHandler (H : Handlers) (i : Handler) (c : Cpu) {n : ℕ}
    (hn : 4 * (n + 4) ≤ 2 ^ 32) :
    (enterHandler H i c).stack (n + 4) =
      H.retAddr i :: c.reg .ebx :: c.reg .ecx :: c.reg .edx :: c.stack n := by
  unfold enterHandler Cpu.pushl
  rw [Cpu.stack_push _ (by omega), Cpu.stack_push _ (by omega), Cpu.stack_push _ (by omega),
    Cpu.stack_push _ (by omega)]
  rfl

theorem esp_enterHandler (H : Handlers) (i : Handler) (c : Cpu) :
    (enterHandler H i c).esp + 16 = c.esp := by
  show c.esp - 4 - 4 - 4 - 4 + 16 = c.esp
  bv_omega

/-- What the stub pushes are the arguments of the handler. -/
theorem sysCall_enterHandler (H : Handlers) (i : Handler) (c c' : Cpu) :
    sysCall i (enterHandler H i c) c' =
      ⟨i, c.reg .ebx, c.reg .ecx, c.reg .edx, c'.reg .eax⟩ := by
  have hs := stack_enterHandler H i c (n := 0) (by decide)
  simp only [Cpu.stack, Memory.words, List.cons.injEq, and_true] at hs
  obtain ⟨-, hebx, hecx, hedx⟩ := hs
  unfold sysCall
  rw [← hebx, ← hecx, ← hedx]
  congr 2 <;> bv_omega

/-- Below the four words, the stack is as it was. -/
theorem words_enterHandler (H : Handlers) (i : Handler) (c : Cpu) {n : ℕ}
    (hn : 4 * (n + 4) ≤ 2 ^ 32) :
    (enterHandler H i c).mem.words ((enterHandler H i c).esp + 16) n = c.stack n := by
  have hs := congrArg (List.drop 4) (stack_enterHandler H i c hn)
  have h16 : (enterHandler H i c).esp + 16 = (enterHandler H i c).esp + 4 + 4 + 4 + 4 := by
    bv_omega
  rw [h16]
  exact hs

/-- A handler that keeps to the calling convention returns to the saved frame. -/
theorem retFromSyscalls_of_cdecl (h : Cdecl (enterHandler H i (saveAllSys (c.pushl .eax))) c') :
    Restored c (retFromSyscalls c') ∧ (retFromSyscalls c').reg .eax = c'.reg .eax := by
  have hesp : (c'.addEsp 12).esp = (enterHandler H i (saveAllSys (c.pushl .eax))).esp + 16 := by
    show c'.esp + 12 = _
    rw [h.esp]
    bv_omega
  have hs : (c'.addEsp 12).stack 15 = savedFrame c (c.reg .eax) := by
    unfold Cpu.stack
    -- the handler leaves the saved frame as it is, and the stub pushed below it
    rw [hesp, ← stack_saveAllSys, ← words_enterHandler H i _ (by decide)]
    exact Memory.words_congr (by decide) h.frame
  apply resumeUserspace_of_savedFrame hs
  rw [hesp, esp_enterHandler, esp_saveAllSys]

/-! ## The contract -/

/-- `%eax` names one of the ten calls. -/
def ValidCall (c : Cpu) : Prop := 1 ≤ c.reg .eax ∧ c.reg .eax ≤ 10

instance (c : Cpu) : Decidable (ValidCall c) := inferInstanceAs (Decidable (_ ∧ _))

/-- The entry for a valid number calls the function of the table at that number, on the saved
`%ebx`, `%ecx` and `%edx`, and returns what the function returned. -/
def CallsHandler (c : Cpu) (e : Exit) : Prop :=
  ∃ i v, sysCallTable[(c.reg .eax).toNat - 1]? = some i ∧
    e.calls = [⟨i, c.reg .ebx, c.reg .ecx, c.reg .edx, v⟩] ∧ e.cpu.reg .eax = v

/-- What the stub is for: a valid number is dispatched, any other calls nothing and returns
`ENOSYS`, and user mode finds all else as it was. -/
def EntryContract (H : Handlers) (c : Cpu) : Prop :=
  ∃ e, handleSyscall H c = some e ∧ Restored c e.cpu ∧
    (ValidCall c → CallsHandler c e) ∧
    (¬ ValidCall c → e.calls = [] ∧ e.cpu.reg .eax = enosys)

/-- A number from 1 to 10 is an entry of the table. -/
theorem exists_sysCallTable_of_validCall (h : ValidCall c) :
    ∃ i, sysCallTable[(c.reg .eax - 1).toNat]? = some i ∧
      sysCallTable[(c.reg .eax).toNat - 1]? = some i := by
  obtain ⟨h1, h10⟩ := h
  have hsub : (c.reg .eax - 1).toNat = (c.reg .eax).toNat - 1 := by bv_omega
  have hlt : (c.reg .eax).toNat - 1 < sysCallTable.length := by
    show (c.reg .eax).toNat - 1 < 10
    bv_omega
  refine ⟨sysCallTable[(c.reg .eax).toNat - 1], ?_, ?_⟩
  · rw [hsub]
    exact List.getElem?_eq_getElem hlt
  · exact List.getElem?_eq_getElem hlt

/-- The two comparisons of `handle_syscall`, unsigned, keep exactly the valid numbers. -/
theorem handleSyscall_of_not_validCall (h : ¬ ValidCall c) :
    handleSyscall H c = some ⟨syscallInvalid (saveAllSys (c.pushl .eax)), []⟩ := by
  unfold handleSyscall compareCall
  rw [reg_saveAllSys]
  by_cases h1 : c.reg .eax < 1
  · rw [if_pos h1]
  · have h11 : ¬ c.reg .eax < 11 := by
      intro h11
      exact h ⟨by bv_omega, by bv_omega⟩
    rw [if_neg h1, if_neg h11]

theorem handleSyscall_of_validCall (h : ValidCall c)
    (hi : sysCallTable[(c.reg .eax - 1).toNat]? = some i) :
    handleSyscall H c = some
      ⟨retFromSyscalls (H.run i (enterHandler H i (saveAllSys (c.pushl .eax)))),
        [sysCall i (enterHandler H i (saveAllSys (c.pushl .eax)))
          (H.run i (enterHandler H i (saveAllSys (c.pushl .eax))))]⟩ := by
  obtain ⟨h1, h10⟩ := h
  have h1' : ¬ c.reg .eax < 1 := by bv_omega
  have h11 : c.reg .eax < 11 := by bv_omega
  unfold handleSyscall compareCall syscallIsValid
  rw [reg_saveAllSys, if_neg h1', if_pos h11, hi]

/-- A valid number is dispatched as the contract says. -/
theorem entryContract_of_validCall (hH : ∀ i c, Cdecl c (H.run i c)) (h : ValidCall c) :
    EntryContract H c := by
  obtain ⟨i, hi, hi'⟩ := exists_sysCallTable_of_validCall h
  obtain ⟨hrest, heax⟩ := retFromSyscalls_of_cdecl
    (hH i (enterHandler H i (saveAllSys (c.pushl .eax))))
  refine ⟨_, handleSyscall_of_validCall h hi, hrest, ?_, fun hn => absurd h hn⟩
  intro _
  refine ⟨i, _, hi', ?_, heax⟩
  rw [sysCall_enterHandler]
  rfl

/-- **The system call entry meets its contract for exactly the ten valid numbers and for -1.** At
any other number the error code stored in the frame is overwritten on the shared exit, and user
mode gets the number back. -/
theorem entryContract_iff (hH : ∀ i c, Cdecl c (H.run i c)) (c : Cpu) :
    EntryContract H c ↔ ValidCall c ∨ c.reg .eax = enosys := by
  by_cases h : ValidCall c
  · exact iff_of_true (entryContract_of_validCall hH h) (Or.inl h)
  · obtain ⟨hrest, heax⟩ := syscallInvalid_saveAllSys c
    constructor
    · intro ⟨e, he, _, _, hinv⟩
      have he' := Option.some.inj ((handleSyscall_of_not_validCall h).symm.trans he)
      obtain ⟨_, hret⟩ := hinv h
      rw [← he', heax] at hret
      exact Or.inr hret
    · intro hor
      have hret := hor.resolve_left h
      exact ⟨_, handleSyscall_of_not_validCall h, hrest, fun hv => absurd hv h,
        fun _ => ⟨rfl, heax.trans hret⟩⟩

/-! ## A run of the stub -/

/-- Handlers that return the sum of their arguments, all at one return address. -/
def sampleHandlers : Handlers where
  run _ c :=
    { c with
      reg := update c.reg .eax
        (c.mem.load32 (c.esp + 4) + c.mem.load32 (c.esp + 8) + c.mem.load32 (c.esp + 12))
      esp := c.esp + 4 }
  retAddr _ := 0x400100

/-- The registers at an `int 0x80` of a user program, with `n` in `%eax`. -/
def sampleCpu (n : Word) : Cpu where
  reg := fun
    | .eax => n
    | .ebx => 1
    | .ecx => 0x8048100
    | .edx => 20
    | .esi => 5
    | .edi => 6
    | .ebp => 0x83fff00
  esp := 0x7fffe8
  ds := 0x2B
  es := 0x2B
  df := true
  mem := fun _ => 0

theorem sampleHandlers_cdecl (i : Handler) (c : Cpu) : Cdecl c (sampleHandlers.run i c) where
  esp := rfl
  saved := by
    intro r hr
    apply update_of_ne
    rintro rfl
    exact absurd hr (by decide)
  frame _ _ := rfl

theorem entryContract_iff_sample :
    EntryContract sampleHandlers (sampleCpu 4) ∧ ¬ EntryContract sampleHandlers (sampleCpu 11) :=
  ⟨(entryContract_iff sampleHandlers_cdecl (sampleCpu 4)).mpr (by decide),
    fun h => absurd ((entryContract_iff sampleHandlers_cdecl (sampleCpu 11)).mp h) (by decide)⟩

/-- With 11 in `%eax` user mode gets 11 back. -/
theorem not_entryContract_sample :
    ¬ ∀ (H : Handlers) (c : Cpu), (∀ i c, Cdecl c (H.run i c)) → EntryContract H c := by
  intro hall
  obtain ⟨e, he, _, _, hinv⟩ := hall sampleHandlers (sampleCpu 11) sampleHandlers_cdecl
  have hnot : ¬ ValidCall (sampleCpu 11) := by decide
  have he' := Option.some.inj ((handleSyscall_of_not_validCall hnot).symm.trans he)
  have heax : e.cpu.reg .eax = 11 := by
    rw [← he']
    exact (syscallInvalid_saveAllSys (sampleCpu 11)).2
  have hret := (hinv hnot).2
  rw [heax] at hret
  exact absurd hret (by decide)

end HieUnix
