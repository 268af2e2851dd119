import HieUnix.FileSystem
import HieUnix.Lib.Transition

/-!
# Processes (`syscalls.c`, `page.c`, `sched.c`, `lib.c`)

The process tables and the four operations that change them: `execute`, `halt`, the terminal
switch of the keyboard handler and the timer tick. Each takes the state of the kernel and the
stack frame it runs on, and gives the state after it and where control goes.

`get_pcb` finds the running process by rounding the stack pointer down, so a frame carries the
control block its stack pointer lies in. The buffers of the terminals and the screen are not
part of this state, and interrupt masks are left out.
-/

namespace HieUnix

open Function

/-! ## State -/

/-- The process tables, the paging entries they use, and the CPU's stack pointer. -/
structure Kernel where
  pcbUsed : Slot → Bool
  progUsedPage : Slot → Bool
  /-- `page_directory[PROG_PD_ENTRY]`. -/
  progPde : Word
  /-- The entry of `page_directory` for the video page. -/
  videoPde : Word
  /-- The entry of `pt_vid1` for the video page. -/
  videoPte : Word
  /-- `tss.esp0`. -/
  tssEsp0 : Word
  termCurrPcb : Term → Option Slot
  currentActiveTerminal : Term
  pcb : Slot → Pcb
  /-- The 4 MB pages programs are loaded in. -/
  progPage : Slot → Memory
  /-- The stack pointer in the kernel; on the way to user mode, where the next entry starts. -/
  esp : Word

/-- A function's frame on a kernel stack: its stack and frame pointers, and what `get_pcb`
returns there. -/
structure Frame where
  esp : Word
  ebp : Word
  pcb : Slot
  getPcb_esp : getPcb esp = some pcb

/-- The frame at the top of a kernel stack. -/
def Frame.top (i : Slot) : Frame := ⟨getKstackAddr i, getKstackAddr i, i, getPcb_getKstackAddr i⟩

/-- Where an operation leaves control: it returns a value, starts a program in user mode, or
continues another kernel stack. -/
inductive Control
  | ret (v : Word)
  | enter (eip : Word)
  | jump (esp ebp : Word) (eip : Label)
deriving DecidableEq, Repr

/-! ## Checking a program -/

/-- What `execute` learns about a program file before it changes anything. -/
structure Exe where
  inode : Word
  eip : Word
  length : Word
deriving DecidableEq, Repr

/-- `parse`: the name of the program and the argument string of a command. -/
def parse (command : List Byte) : List Byte × List Byte :=
  let rest := command.dropWhile (· == chr ' ')
  (rest.takeWhile (· != chr ' '),
    (rest.dropWhile (· != chr ' ')).dropWhile (· == chr ' '))

/-- `check_magic_header`: whether the first four bytes are wrong. -/
def checkMagicHeader (buf : ℕ → Byte) : Bool :=
  buf 0 != 0x7F || buf 1 != chr 'E' || buf 2 != chr 'L' || buf 3 != chr 'F'

/-- Where `buf` of `execute` is. `read_data` clears it first, so that neither the address nor
what was there matters. -/
def headerBuf : Word := 0x7ff000

/-- The checks of `execute` on a command, up to `get_file_length`. -/
def checkProgram (fs : Fs) (img : Memory) (command : List Byte) : Option Exe :=
  match readDentryByName fs img (cstr (parse command).1) Dentry.uninit with
  | none => none
  | some dentry =>
    let (ret, mem) := readData fs img dentry.inode 0 (fun _ => 0) headerBuf 40
    if ret = error then none
    else
      let buf := mem.view headerBuf
      if checkMagicHeader buf then none
      else
        let eip : Word := buf 27 ++ buf 26 ++ buf 25 ++ buf 24
        if eip < execAddr ∨ userStack ≤ eip then none
        else some { inode := dentry.inode, eip := eip, length := getFileLength fs img dentry.inode }

/-- The machine a kernel boots on: the file system, the address of `pt_vid1`, and a shell that
can be executed. -/
structure Machine where
  fs : Fs
  img : Memory
  ptVid1 : Word
  shellExe : Exe
  checkProgram_shell : checkProgram fs img shell = some shellExe

/-! ## Pages and control blocks -/

/-- The physical address of the program page `idx`. -/
def progPageAddr (idx : ℕ) : Word := 0x800000 + BitVec.ofNat 32 idx * 0x400000

/-- The entry of the page directory for the program page `idx`: a 4 MB page that the user can
read and write, present and not cached. -/
def progPde (idx : ℕ) : Word := progPageAddr idx ||| 0x80 ||| 0x10 ||| 0x4 ||| 0x2 ||| 0x1

/-- The first free entry of a table. -/
def firstFree (used : Slot → Bool) : Option Slot :=
  (List.finRange maxNumProg).find? fun i => used i = false

namespace Kernel

/-- `add_prog_page`. -/
def addProgPage (k : Kernel) : Option (Slot × Kernel) :=
  (firstFree k.progUsedPage).map fun i =>
    (i, { k with progUsedPage := update k.progUsedPage i true, progPde := HieUnix.progPde i })

/-- `set_prog_page`. -/
def setProgPage (k : Kernel) (idx : ℕ) : Kernel :=
  if h : idx < maxNumProg then
    { k with progPde := HieUnix.progPde idx, progUsedPage := update k.progUsedPage ⟨idx, h⟩ true }
  else k

/-- `free_prog_page`. -/
def freeProgPage (k : Kernel) (idx : ℕ) : Kernel :=
  if h : idx < maxNumProg then
    { k with progPde := 0, progUsedPage := update k.progUsedPage ⟨idx, h⟩ false }
  else k

/-- `set_video_page`. -/
def setVideoPage (m : Machine) (k : Kernel) (setOn : Bool) : Kernel :=
  { k with
    videoPde := m.ptVid1 ||| 0x4 ||| 0x2 ||| 0x1
    videoPte := (if setOn then 0xB8000 else 0xBC000) ||| 0x4 ||| 0x2 ||| 0x1 }

/-- `add_pcb`. -/
def addPcb (k : Kernel) : Option (Slot × Kernel) :=
  (firstFree k.pcbUsed).map fun i => (i, { k with pcbUsed := update k.pcbUsed i true })

/-- Kernel state with one control block changed. -/
def setPcb (k : Kernel) (i : Slot) (f : Pcb → Pcb) : Kernel :=
  { k with pcb := update k.pcb i (f (k.pcb i)) }

/-- `term_curr_pcb[t] = p`. -/
def setTermCurr (k : Kernel) (t : Term) (p : Option Slot) : Kernel :=
  { k with termCurrPcb := update k.termCurrPcb t p }

/-- `tss.esp0 = v`. -/
def setTssEsp0 (k : Kernel) (v : Word) : Kernel := { k with tssEsp0 := v }

/-- `pcb_used[i] = 0`. -/
def freePcb (k : Kernel) (i : Slot) : Kernel := { k with pcbUsed := update k.pcbUsed i false }

end Kernel

/-! ## `execute` -/

/-- The descriptor of the terminal in a new process. -/
def Fd.terminal : Fd := ⟨some .terminalFops, 0, 0, 1⟩

/-- `initialize_pcb` on the control block `i`. -/
def initializePcb (currentActiveTerminal : Term) (i : Slot) (p : Pcb) : Pcb :=
  { p with
    fileDesc := fun fd => if fd.val < 2 then Fd.terminal else Fd.closed
    argumentBufferSize := 0
    argumentBuffer := update p.argumentBuffer 0 0
    terminalNumber := currentActiveTerminal
    tssEsp := getKstackAddr i }

/-- What the second `parse` stores in the new control block. -/
def storeArguments (args : List Byte) (p : Pcb) : Pcb :=
  { p with
    argumentBuffer := fun n =>
      if n < args.length then args.getD n 0 else if n = args.length then 0 else p.argumentBuffer n
    argumentBufferSize := BitVec.ofNat 32 (args.length + 1) }

/-- The control block of the new process before `parent` is set. -/
def childPcb (k : Kernel) (command : List Byte) (ptIdx pcbIdx : Slot) : Pcb :=
  storeArguments (parse (command.take maxBufferSize)).2
    { initializePcb k.currentActiveTerminal pcbIdx (k.pcb pcbIdx) with ptIdx := ptIdx, pcbIdx := pcbIdx }

/-- `execute` from `initialize_pcb` to the `iret`. -/
def runChild (m : Machine) (k : Kernel) (fr : Frame) (command : List Byte) (exe : Exe)
    (ptIdx pcbIdx : Slot) : Kernel :=
  let k := k.setPcb pcbIdx fun _ => childPcb k command ptIdx pcbIdx
  -- the first program of a terminal has no parent
  let k :=
    match k.termCurrPcb k.currentActiveTerminal with
    | some _ => k.setPcb pcbIdx fun p =>
        { p with parent := some fr.pcb, oldEsp := fr.esp, oldEbp := fr.ebp, oldTssEsp := k.tssEsp0 }
    | none => k.setPcb pcbIdx fun p => { p with parent := none }
  let k := k.setPcb fr.pcb fun p => { p with esp := fr.esp, ebp := fr.ebp, eip := .retHere }
  let k := { k with
    progPage := update k.progPage ptIdx
      (readData m.fs m.img exe.inode 0 (k.progPage ptIdx) execAddr exe.length).2 }
  let k := k.setTssEsp0 (getKstackAddr pcbIdx)
  let k := k.setTermCurr k.currentActiveTerminal (some pcbIdx)
  { k with esp := k.tssEsp0 }

/-- `execute`. A null command is `none`. -/
def execute (m : Machine) (k : Kernel) (fr : Frame) (command : Option (List Byte)) :
    Control × Kernel :=
  match command with
  | none => (.ret error, k)
  | some command =>
    if command = [] then (.ret error, k)
    else
      match checkProgram m.fs m.img command with
      | none => (.ret error, k)
      | some exe =>
        match k.addProgPage with
        | none => (.ret error, k)
        | some (ptIdx, k) =>
          match k.addPcb with
          | none => (.ret error, k)
          | some (pcbIdx, k) => (.enter exe.eip, runChild m k fr command exe ptIdx pcbIdx)

/-! ## `halt` -/

/-- `halt`, called with the stack argument `arg`, of which the parameter is the low byte.
`sub` is the frame of the `execute` that restarts a shell. -/
def halt (m : Machine) (k : Kernel) (fr sub : Frame) (arg : Word) : Control × Kernel :=
  let status : Byte := arg.setWidth 8
  let curr := k.pcb fr.pcb
  match curr.parent with
  | some parent =>
    let k := k.setTermCurr curr.terminalNumber (some parent)
    let k := k.freeProgPage curr.ptIdx
    let k := k.setProgPage (k.pcb parent).ptIdx
    let k := k.setTssEsp0 curr.oldTssEsp
    let k := k.freePcb curr.pcbIdx
    let k := k.setPcb parent fun p => { p with returnVal := status.setWidth 32 &&& 0xFF }
    (.jump curr.oldEsp curr.oldEbp .retHere, { k with esp := curr.oldEsp })
  | none =>
    let k := k.setTermCurr curr.terminalNumber none
    let k := k.freeProgPage curr.ptIdx
    let k := k.setTssEsp0 curr.oldTssEsp
    let k := k.freePcb curr.pcbIdx
    match execute m k sub (some shell) with
    | (.ret _, k) => (.ret 0, k)
    | r => r

/-! ## Terminal switch and tick -/

/-- `change_video_mem`. -/
def changeVideoMem (m : Machine) (k : Kernel) (fr : Frame) (oldTermNum newTermNum : Term) :
    Control × Kernel :=
  if oldTermNum = newTermNum then (.ret 0, k)
  else if firstFree k.pcbUsed = none ∧ k.termCurrPcb newTermNum = none then (.ret 0, k)
  else
    let k := { k.setVideoPage m false with currentActiveTerminal := newTermNum }
    match k.termCurrPcb newTermNum with
    | some _ => (.ret 0, k)
    | none => execute m k fr (some shell)

/-- The search of `do_handle_pit` for the running process: the index it stops at, 3 when the
process is no head. -/
def findIndex (termCurrPcb : Term → Option Slot) (temp : Slot) : ℕ :=
  match (List.finRange numTerminals).find? fun j => termCurrPcb j = some temp with
  | some j => j.val
  | none => numTerminals

/-- The loop of `do_handle_pit` that looks for the next head, from `i` on. -/
def nextIndexLoop (termCurrPcb : Term → Option Slot) (qindex : ℕ) : ℕ → ℕ → Option ℕ
  | 0, _ => none
  | fuel + 1, i =>
    if termCurrPcb ⟨i % numTerminals, mod_numTerminals_lt i⟩ = none then
      if (i + 1) % numTerminals = qindex then some (i + 1)
      else nextIndexLoop termCurrPcb qindex fuel (i + 1)
    else some i

/-- The terminal `do_handle_pit` switches to. Six turns are enough for the loop. -/
def nextTerminal (termCurrPcb : Term → Option Slot) (temp : Slot) : Option Term :=
  let qindex := findIndex termCurrPcb temp
  (nextIndexLoop termCurrPcb qindex 6 (qindex + 1)).map fun i =>
    ⟨i % numTerminals, mod_numTerminals_lt i⟩

/-- `do_handle_pit` from where it has chosen the terminal `qindex` and its program `next`. -/
def switchTo (m : Machine) (k : Kernel) (fr : Frame) (qindex : Term) (next : Slot) :
    Control × Kernel :=
  let k := k.setTssEsp0 (k.pcb next).tssEsp
  let k := k.setProgPage (k.pcb next).ptIdx
  let k := k.setVideoPage m (decide (qindex = k.currentActiveTerminal))
  -- `__switch_to`
  let k := k.setPcb fr.pcb fun p => { p with esp := fr.esp, ebp := fr.ebp, eip := .switched }
  let p := k.pcb next
  (.jump p.esp p.ebp p.eip, { k with esp := p.esp })

/-- `do_handle_pit`. `none` when the code would follow a null pointer or never return. -/
def doHandlePit (m : Machine) (k : Kernel) (fr : Frame) : Option (Control × Kernel) :=
  if ∀ t, k.termCurrPcb t = none then some (.ret 0, k)
  else
    match nextTerminal k.termCurrPcb fr.pcb with
    | none => none
    | some qindex => (k.termCurrPcb qindex).map (switchTo m k fr qindex)

/-! ## Runs -/

/-- One operation, with the frame it is called on. -/
inductive Op
  | execute (fr : Frame) (command : Option (List Byte))
  | halt (fr sub : Frame) (arg : Word)
  | switch (fr : Frame) (newTermNum : Term)
  | tick (fr : Frame)

/-- The frame an operation is called on. -/
def Op.frame : Op → Frame
  | .execute fr _ => fr
  | .halt fr _ _ => fr
  | .switch fr _ => fr
  | .tick fr => fr

/-- The kernel stack an operation is called on: the current one, or the one the CPU takes from
the task state when it comes from user mode. The two frames of `halt` are on one stack. -/
def Op.Enabled (k : Kernel) (op : Op) : Prop :=
  (getPcb k.esp = some op.frame.pcb ∨ getPcb k.tssEsp0 = some op.frame.pcb) ∧
    match op with
    | .halt fr sub _ => sub.pcb = fr.pcb
    | _ => True

/-- The kernel when an operation is entered on the frame `fr`. -/
def Kernel.entered (k : Kernel) (fr : Frame) : Kernel := { k with esp := fr.esp }

@[simp] theorem Kernel.entered_pcb (k : Kernel) (fr : Frame) : (k.entered fr).pcb = k.pcb := rfl

@[simp] theorem Kernel.entered_pcbUsed (k : Kernel) (fr : Frame) :
    (k.entered fr).pcbUsed = k.pcbUsed := rfl

/-- The effect of an operation. -/
def Op.run (m : Machine) (k : Kernel) : Op → Option (Control × Kernel)
  | .execute fr command => some (HieUnix.execute m k fr command)
  | .halt fr sub arg => some (HieUnix.halt m k fr sub arg)
  | .switch fr newTermNum => some (changeVideoMem m k fr k.currentActiveTerminal newTermNum)
  | .tick fr => doHandlePit m k fr

/-- The kernel before it executes the first shell: nothing is in use. The control blocks and
the program pages hold whatever the memory does. -/
def bootKernel (pcb : Slot → Pcb) (progPage : Slot → Memory) : Kernel where
  pcbUsed _ := false
  progUsedPage _ := false
  progPde := 0
  videoPde := 0
  videoPte := 0
  tssEsp0 := 0x800000
  termCurrPcb _ := none
  currentActiveTerminal := 0
  pcb := pcb
  progPage := progPage
  esp := 0x800000

/-- The kernel's runs: it boots on the stack of slot 0 by executing a shell, and then takes
one operation after the other. -/
def kernelLTS (m : Machine) : LTS Kernel Op where
  init k := ∃ pcb progPage fr, fr.pcb = 0 ∧
    k = (execute m (bootKernel pcb progPage) fr (some shell)).2
  step k op k' := op.Enabled k ∧ ∃ c, op.run m (k.entered op.frame) = some (c, k')

end HieUnix
