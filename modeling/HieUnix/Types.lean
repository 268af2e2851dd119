import HieUnix.Lib.Memory

/-!
# Constants and records of the kernel

The constants of `types.h`, `page.h`, `syscalls.h`, `fs.h` and `lib.h`, and the two records
every subsystem shares: the open-file descriptor `fd_t` and the process control block `pcb_t`.

A pointer to one of the six process control blocks is a `Slot`, the index of the 8 KB kernel
stack it lies on, and a null pointer is `none`; `pcbAddr` gives the address. A pointer to one
of the four operation tables is its name.
-/

namespace HieUnix

/-! ## Constants -/

/-- `ERROR`, as the 32-bit value every call returns. -/
abbrev error : Word := -1

/-- `MAX_NUM_PROG`. -/
abbrev maxNumProg : ℕ := 6

/-- `NUM_TERMINALS`. -/
abbrev numTerminals : ℕ := 3

/-- `MAX_FILE_NUM`. -/
abbrev maxFileNum : ℕ := 8

instance : NeZero maxNumProg := ⟨by decide⟩
instance : NeZero numTerminals := ⟨by decide⟩
instance : NeZero maxFileNum := ⟨by decide⟩

theorem mod_numTerminals_lt (i : ℕ) : i % numTerminals < numTerminals :=
  Nat.mod_lt i (by decide)

/-- `MAX_BUFFER_SIZE`, also `BUFFER_SIZE` of the terminal. -/
abbrev maxBufferSize : ℕ := 128

/-- `FNAME_SIZE`. -/
abbrev fnameSize : ℕ := 32

/-- `ENTRY_SIZE`, the size of a `dentry_t`. -/
abbrev entrySize : ℕ := 64

/-- `BLOCK_SIZE`. -/
abbrev blockSize : Word := 4096

/-- `MAX_BUF_SIZE`: what `dir_buf` is declared with. -/
abbrev maxBufSize : ℕ := 62 * fnameSize

/-- `RTC_FILE`. -/
abbrev rtcFile : Word := 0
/-- `DIR_FILE`. -/
abbrev dirFile : Word := 1
/-- `REG_FILE`. -/
abbrev regFile : Word := 2

/-- `EXEC_ADDR`: where a program is loaded. -/
abbrev execAddr : Word := 0x08048000
/-- `USER_STACK`: the end of a program's page. -/
abbrev userStack : Word := 0x08400000
/-- `KERNEL_STACK_BOT`. -/
abbrev kernelStackBot : Word := 0x800000
/-- `PCB_OFFSET`: the distance between two process control blocks. -/
abbrev pcbOffset : Word := 0x2000
/-- `PCB_MASK`. -/
abbrev pcbMask : Word := 0xffffe000
/-- `USER_PROG_ADDR`. -/
abbrev userProgAddr : Word := 0x8000000
/-- `VIDEO_ASSIGNED_MEM_ADDR`. -/
abbrev videoAssignedMemAddr : Word := 0x8400000
/-- `PAGE_SIZE_4KB`. -/
abbrev pageSize4KB : Word := 0x1000

/-- The byte of a character. -/
def chr (c : Char) : Byte := BitVec.ofNat 8 c.toNat

/-! ## Descriptors and process control blocks -/

/-- The four operation tables of `set_up_fops`. -/
inductive FopsTable
  | terminalFops
  | rtcFops
  | fileFops
  | dirFops
deriving DecidableEq, Repr

/-- `fd_t`. -/
structure Fd where
  fopsP : Option FopsTable
  inodeP : Word
  filePos : Word
  flags : Word
deriving DecidableEq, Repr

/-- A descriptor that is not in use. -/
def Fd.closed : Fd := ⟨none, 0, 0, 0⟩

/-- A process control block, by its index in `pcb_used`. -/
abbrev Slot := Fin maxNumProg

/-- A terminal. -/
abbrev Term := Fin numTerminals

/-- `KERNEL_STACK_BOT - (pcb_idx + 1) * PCB_OFFSET`: where `execute` puts a control block. -/
def pcbAddr (i : Slot) : Word := kernelStackBot - (BitVec.ofNat 32 i.val + 1) * pcbOffset

/-- `get_kstack_addr`. -/
def getKstackAddr (i : Slot) : Word := pcbAddr i + pcbOffset - 4

/-- `get_pcb` at the stack pointer `esp`: the control block at `esp & PCB_MASK`. -/
def getPcb (esp : Word) : Option Slot :=
  (List.finRange maxNumProg).find? fun i => pcbAddr i == esp &&& pcbMask

/-- The top of a kernel stack is on that stack. -/
@[simp] theorem getPcb_getKstackAddr : ∀ i : Slot, getPcb (getKstackAddr i) = some i := by
  decide

/-- Where a suspended process continues: `ret_here` of `execute`, or the label `1` of
`__switch_to`. -/
inductive Label
  | retHere
  | switched
deriving DecidableEq, Repr

/-- `pcb_t`, without the fields nothing reads. -/
structure Pcb where
  fileDesc : Fin maxFileNum → Fd
  parent : Option Slot
  ptIdx : ℕ
  pcbIdx : Slot
  oldEsp : Word
  oldEbp : Word
  oldTssEsp : Word
  returnVal : Word
  argumentBufferSize : Word
  terminalNumber : Term
  tssEsp : Word
  eip : Label
  esp : Word
  ebp : Word
  argumentBuffer : ℕ → Byte

end HieUnix
