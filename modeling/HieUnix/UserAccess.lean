import HieUnix.Descriptors
import HieUnix.Lib.Traced

/-!
# The accesses of the system calls to user memory

`read`, `write`, `open`, `getargs`, `vidmap` and `execute` again, with each access to the memory of
the caller through a primitive that records it. The buffers and strings a call is given are in that
memory; the image, the globals and the control blocks are the kernel's own. `val_` theorems say
that a recorded function computes what the function computes.
-/

namespace HieUnix

variable {fs : Fs} {img mem : Memory} {term : Term} {p a buf : Word}

/-! ## Strings of the caller -/

/-- `a` holds a byte of the string at `p`, its zero byte included. -/
def InString (mem : Memory) (p a : Word) : Prop :=
  ∃ j < 2 ^ 32, a = p + BitVec.ofNat 32 j ∧ ∀ l < j, mem.view p l ≠ 0

/-- `strncmpLoop` with the second string at `p`. -/
def strncmpLoopT (s1 : ℕ → Byte) (mem : Memory) (p : Word) : ℕ → ℕ → Traced ℤ
  | 0, _ => pure 0
  | n + 1, i => do
    let c ← Traced.load mem (p + BitVec.ofNat 32 i)
    if s1 i ≠ c ∨ s1 i = 0 then pure ((s1 i).toInt - c.toInt) else strncmpLoopT s1 mem p n (i + 1)

theorem val_strncmpLoopT (s1 : ℕ → Byte) (mem : Memory) (p : Word) (n i : ℕ) :
    (strncmpLoopT s1 mem p n i).val = strncmpLoop s1 (mem.view p) n i := by
  induction n generalizing i with
  | zero => rfl
  | succ n ih =>
    rw [strncmpLoopT, strncmpLoop, Traced.val_bind, Traced.val_load, ← ih]
    unfold Memory.view
    split <;> rfl

/-- A comparison reads no byte past the end of the string. -/
theorem touches_strncmpLoopT {s1 : ℕ → Byte} {n i : ℕ} (h : (strncmpLoopT s1 mem p n i).Touches a)
    (hi : ∀ l < i, mem.view p l ≠ 0) (hn : i + n ≤ 2 ^ 32) : InString mem p a := by
  induction n generalizing i with
  | zero => exact absurd h (Traced.not_touches_pure _)
  | succ n ih =>
    rw [strncmpLoopT, Traced.touches_bind, Traced.touches_load, Traced.val_load] at h
    rcases h with rfl | h
    · exact ⟨i, by omega, rfl, hi⟩
    · split at h
      · exact absurd h (Traced.not_touches_pure _)
      · rename_i hsame
        refine ih h (fun l hl => ?_) (by omega)
        rcases Nat.lt_succ_iff_lt_or_eq.mp hl with hlt | rfl
        · exact hi l hlt
        · -- the loop goes on only when the two bytes agree and are not zero
          obtain ⟨heq, hnz⟩ := not_or.mp hsame
          rw [not_not] at heq
          rw [Memory.view, ← heq]
          exact hnz

/-- `readDentryByNameLoop` with the name at `p`. -/
def readDentryByNameLoopT (fs : Fs) (img mem : Memory) (p : Word) (dentry : Dentry) :
    ℕ → ℕ → Traced (Option Dentry)
  | 0, _ => pure none
  | fuel + 1, i => do
    let cur := img.view (fs.dentryAddr i)
    let c ← strncmpLoopT cur mem p fnameSize 0
    if c = 0 then pure (some (copyDentry fs img i (strncpy dentry.fname cur fnameSize)))
    else readDentryByNameLoopT fs img mem p dentry fuel (i + 1)

/-- `read_dentry_by_name` of a name at `p`. -/
def readDentryByNameT (fs : Fs) (img mem : Memory) (p : Word) (dentry : Dentry) :
    Traced (Option Dentry) :=
  if fs.fsBaseAdr = 0 then pure none
  else readDentryByNameLoopT fs img mem p dentry fs.numDentries.toNat 0

theorem val_readDentryByNameLoopT (fs : Fs) (img mem : Memory) (p : Word) (dentry : Dentry)
    (fuel i : ℕ) : (readDentryByNameLoopT fs img mem p dentry fuel i).val
      = readDentryByNameLoop fs img (mem.view p) dentry fuel i := by
  induction fuel generalizing i with
  | zero => rfl
  | succ fuel ih =>
    rw [readDentryByNameLoopT, readDentryByNameLoop, Traced.val_bind, val_strncmpLoopT, ← ih]
    unfold strncmp
    split <;> rfl

theorem val_readDentryByNameT (fs : Fs) (img mem : Memory) (p : Word) (dentry : Dentry) :
    (readDentryByNameT fs img mem p dentry).val
      = readDentryByName fs img (mem.view p) dentry := by
  unfold readDentryByNameT readDentryByName
  split
  · rfl
  · exact val_readDentryByNameLoopT fs img mem p dentry _ 0

/-- Each comparison with an entry stops at the end of the name. -/
theorem touches_readDentryByNameLoopT {dentry : Dentry} {fuel i : ℕ}
    (h : (readDentryByNameLoopT fs img mem p dentry fuel i).Touches a) : InString mem p a := by
  induction fuel generalizing i with
  | zero => exact absurd h (Traced.not_touches_pure _)
  | succ fuel ih =>
    rw [readDentryByNameLoopT, Traced.touches_bind] at h
    rcases h with h | h
    · exact touches_strncmpLoopT h (fun l hl => absurd hl (Nat.not_lt_zero l)) (by decide)
    · split at h
      · exact absurd h (Traced.not_touches_pure _)
      · exact ih h

/-- A lookup reads no byte past the end of the name. -/
theorem touches_readDentryByNameT {dentry : Dentry}
    (h : (readDentryByNameT fs img mem p dentry).Touches a) : InString mem p a := by
  unfold readDentryByNameT at h
  split at h
  · exact absurd h (Traced.not_touches_pure _)
  · exact touches_readDentryByNameLoopT h

/-- A lookup in a directory with an entry reads the first byte of the name. -/
theorem touches_readDentryByNameT_self (hbase : fs.fsBaseAdr ≠ 0) (hnum : fs.numDentries ≠ 0)
    (dentry : Dentry) : (readDentryByNameT fs img mem p dentry).Touches p := by
  unfold readDentryByNameT
  rw [if_neg hbase]
  obtain ⟨n, hn⟩ : ∃ n, fs.numDentries.toNat = n + 1 :=
    Nat.exists_eq_succ_of_ne_zero fun h => hnum (BitVec.eq_of_toNat_eq h)
  rw [hn, readDentryByNameLoopT, Traced.touches_bind, strncmpLoopT, Traced.touches_bind,
    Traced.touches_load]
  exact Or.inl (Or.inl (BitVec.add_zero p).symm)

/-- A lookup that reads nothing finds nothing. -/
theorem readDentryByNameT_of_empty (h : fs.fsBaseAdr = 0 ∨ fs.numDentries = 0) (dentry : Dentry) :
    readDentryByNameT fs img mem p dentry = pure none := by
  unfold readDentryByNameT
  split
  · rfl
  · rename_i hbase
    rw [h.resolve_left hbase]
    rfl

/-! ## Regular files and directories -/

/-- `readDataLoop` with its stores recorded. -/
def readDataLoopT (fs : Fs) (img : Memory) (inode fileLength offset buf : Word) :
    ℕ → ℕ → Memory → Traced (Word × Memory)
  | 0, i, mem => pure (BitVec.ofNat 32 i, mem)
  | fuel + 1, i, mem =>
    let pos := offset + BitVec.ofNat 32 i
    let blockNumber := fs.blockNumber img inode (pos / blockSize)
    if fs.numDataBlocks ≤ blockNumber then pure (error, mem)
    else do
      let mem ← Traced.store mem (buf + BitVec.ofNat 32 i)
        (img (fs.dataAddr blockNumber (pos % blockSize)))
      if fileLength ≤ pos + 1 then pure (BitVec.ofNat 32 (i + 1), mem)
      else readDataLoopT fs img inode fileLength offset buf fuel (i + 1) mem

/-- `read_data`. -/
def readDataT (fs : Fs) (img : Memory) (inode offset : Word) (mem : Memory) (buf length : Word) :
    Traced (Word × Memory) :=
  if fs.fsBaseAdr = 0 then pure (error, mem)
  else if fs.numIndexNodes ≤ inode then pure (error, mem)
  else if buf = 0 then pure (error, mem)
  else do
    let mem ← Traced.fill mem buf 0 length.toNat
    let fileLength := getFileLength fs img inode
    if fileLength ≤ offset then pure (0, mem)
    else readDataLoopT fs img inode fileLength offset buf length.toNat 0 mem

theorem val_readDataLoopT (fs : Fs) (img : Memory) (inode fileLength offset buf : Word)
    (fuel i : ℕ) (mem : Memory) :
    (readDataLoopT fs img inode fileLength offset buf fuel i mem).val
      = readDataLoop fs img inode fileLength offset buf fuel i mem := by
  induction fuel generalizing i mem with
  | zero => rfl
  | succ fuel ih =>
    unfold readDataLoopT readDataLoop
    dsimp only
    split
    · rfl
    · rw [Traced.val_bind, Traced.val_store, ← ih]
      split <;> rfl

theorem val_readDataT (fs : Fs) (img : Memory) (inode offset : Word) (mem : Memory)
    (buf length : Word) : (readDataT fs img inode offset mem buf length).val
      = readData fs img inode offset mem buf length := by
  unfold readDataT readData
  split
  · rfl
  · split
    · rfl
    · split
      · rfl
      · rw [Traced.val_bind, Traced.val_fill]
        dsimp only
        rw [← val_readDataLoopT]
        split <;> rfl

/-- The copy loop stores below the request. -/
theorem touches_readDataLoopT {inode fileLength offset : Word} {fuel i : ℕ} {mem : Memory}
    (h : (readDataLoopT fs img inode fileLength offset buf fuel i mem).Touches a) :
    InSpan a buf (i + fuel) := by
  induction fuel generalizing i mem with
  | zero => exact absurd h (Traced.not_touches_pure _)
  | succ fuel ih =>
    unfold readDataLoopT at h
    dsimp only at h
    split at h
    · exact absurd h (Traced.not_touches_pure _)
    · rw [Traced.touches_bind, Traced.touches_store] at h
      rcases h with rfl | h
      · exact inSpan_add_ofNat (by omega)
      · split at h
        · exact absurd h (Traced.not_touches_pure _)
        · have hrest := ih h
          unfold InSpan at hrest ⊢
          omega

/-- `read_data` accesses the whole buffer, or fails before any access. -/
theorem touches_readDataT {inode offset length : Word} (hbase : fs.fsBaseAdr ≠ 0)
    (hinode : ¬ fs.numIndexNodes ≤ inode) (hbuf : buf ≠ 0) :
    (readDataT fs img inode offset mem buf length).Touches a ↔ InSpan a buf length.toNat := by
  unfold readDataT
  rw [if_neg hbase, if_neg hinode, if_neg hbuf, Traced.touches_bind, Traced.touches_fill]
  -- what the copy loop stores has been cleared before
  refine or_iff_left_of_imp fun h => ?_
  dsimp only at h
  split at h
  · exact absurd h (Traced.not_touches_pure _)
  · have hloop := touches_readDataLoopT h
    rwa [Nat.zero_add] at hloop

/-- `file_read`. -/
def fileReadT (fs : Fs) (img : Memory) (fd : Fd) (mem : Memory) (buf nbytes : Word) :
    Traced (Word × Fd × Memory) :=
  if fd.flags ≠ 1 ∨ fd.inodeP = 0 then pure (error, fd, mem)
  else do
    let node := (fd.inodeP - fs.fsBaseAdr) / blockSize - 1
    let (bytesRead, mem) ← readDataT fs img node fd.filePos mem buf nbytes
    pure (bytesRead, { fd with filePos := fd.filePos + bytesRead }, mem)

theorem val_fileReadT (fs : Fs) (img : Memory) (fd : Fd) (mem : Memory) (buf nbytes : Word) :
    (fileReadT fs img fd mem buf nbytes).val = fileRead fs img fd mem buf nbytes := by
  unfold fileReadT fileRead
  split
  · rfl
  · rw [Traced.val_bind, val_readDataT]
    rfl

/-- `dirReadLoop` with its stores recorded. -/
def dirReadLoopT (dir : DirState) (filePos buf : Word) :
    ℕ → ℕ → Bool → Memory → Traced (ℕ × Bool × Memory)
  | 0, i, endOfFile, mem => pure (i, endOfFile, mem)
  | fuel + 1, i, endOfFile, mem =>
    if endOfFile then pure (i, endOfFile, mem)
    else do
      let pos := filePos + BitVec.ofNat 32 i
      let mem ← Traced.store mem (buf + BitVec.ofNat 32 i) (dir.dirBuf pos.toNat)
      dirReadLoopT dir filePos buf fuel (i + 1) (decide (dir.dirLength ≤ pos + 1)) mem

theorem val_dirReadLoopT (dir : DirState) (filePos buf : Word) (fuel i : ℕ) (endOfFile : Bool)
    (mem : Memory) : (dirReadLoopT dir filePos buf fuel i endOfFile mem).val
      = dirReadLoop dir filePos buf fuel i endOfFile mem := by
  induction fuel generalizing i endOfFile mem with
  | zero => rfl
  | succ fuel ih =>
    unfold dirReadLoopT dirReadLoop
    split
    · rfl
    · rw [Traced.val_bind, Traced.val_store, ih]

/-- The copy loop stores below the request. -/
theorem touches_dirReadLoopT {dir : DirState} {filePos : Word} {fuel i : ℕ} {endOfFile : Bool}
    {mem : Memory} (h : (dirReadLoopT dir filePos buf fuel i endOfFile mem).Touches a) :
    InSpan a buf (i + fuel) := by
  induction fuel generalizing i endOfFile mem with
  | zero => exact absurd h (Traced.not_touches_pure _)
  | succ fuel ih =>
    unfold dirReadLoopT at h
    split at h
    · exact absurd h (Traced.not_touches_pure _)
    · rw [Traced.touches_bind, Traced.touches_store] at h
      rcases h with rfl | h
      · exact inSpan_add_ofNat (by omega)
      · have hrest := ih h
        unfold InSpan at hrest ⊢
        omega

/-- `dir_read`. -/
def dirReadT (fd : Fd) (dir : DirState) (mem : Memory) (buf nbytes : Word) :
    Traced (Word × Fd × Memory) := do
  let (i, endOfFile, mem) ←
    dirReadLoopT dir fd.filePos buf nbytes.toNat 0 (decide (dir.dirLength ≤ fd.filePos)) mem
  if endOfFile then pure (0, { fd with filePos := dir.dirLength }, mem)
  else pure (BitVec.ofNat 32 i, { fd with filePos := fd.filePos + nbytes }, mem)

theorem val_dirReadT (fd : Fd) (dir : DirState) (mem : Memory) (buf nbytes : Word) :
    (dirReadT fd dir mem buf nbytes).val = dirRead fd dir mem buf nbytes := by
  unfold dirReadT dirRead
  rw [Traced.val_bind, val_dirReadLoopT]
  dsimp only
  split <;> rfl

/-- `dir_read` stores in the buffer only. -/
theorem touches_dirReadT {fd : Fd} {dir : DirState} {nbytes : Word}
    (h : (dirReadT fd dir mem buf nbytes).Touches a) : InSpan a buf nbytes.toNat := by
  unfold dirReadT at h
  rw [Traced.touches_bind] at h
  rcases h with h | h
  · have hloop := touches_dirReadLoopT h
    rwa [Nat.zero_add] at hloop
  · dsimp only at h
    split at h <;> exact absurd h (Traced.not_touches_pure _)

/-! ## Devices -/

/-- `terminalReadLoop` with its stores recorded. -/
def terminalReadLoopT (enterBuffer : ℕ → Byte) (buf : Word) : ℕ → ℕ → Memory → Traced (ℕ × Memory)
  | 0, i, mem => pure (i, mem)
  | fuel + 1, i, mem => do
    let mem ← Traced.store mem (buf + BitVec.ofNat 32 i) (enterBuffer i)
    if enterBuffer i = 0 then pure (i, mem)
    else terminalReadLoopT enterBuffer buf fuel (i + 1) mem

/-- The loop stops at the first zero byte, or after `fuel` bytes. -/
theorem val_terminalReadLoopT (enterBuffer : ℕ → Byte) (buf : Word) (fuel i : ℕ) (mem : Memory) :
    (terminalReadLoopT enterBuffer buf fuel i mem).val = terminalReadLoop enterBuffer buf fuel i mem ∧
      (terminalReadLoop enterBuffer buf fuel i mem).1 = strlenLoop enterBuffer fuel i := by
  induction fuel generalizing i mem with
  | zero => exact ⟨rfl, rfl⟩
  | succ fuel ih =>
    rw [terminalReadLoopT, terminalReadLoop, strlenLoop, Traced.val_bind, Traced.val_store]
    by_cases hz : enterBuffer i = 0
    · rw [if_pos hz, if_pos hz, if_neg (not_not.mpr hz)]
      exact ⟨rfl, rfl⟩
    · rw [if_neg hz, if_neg hz, if_pos hz]
      exact ih (i + 1) _

/-- The loop stores up to where it stops. -/
theorem touches_terminalReadLoopT {enterBuffer : ℕ → Byte} {fuel i : ℕ} {mem : Memory}
    (h : (terminalReadLoopT enterBuffer buf fuel i mem).Touches a) :
    InSpan a buf (strlenLoop enterBuffer fuel i + 1) := by
  induction fuel generalizing i mem with
  | zero => exact absurd h (Traced.not_touches_pure _)
  | succ fuel ih =>
    rw [terminalReadLoopT, Traced.touches_bind, Traced.touches_store] at h
    rw [strlenLoop]
    by_cases hz : enterBuffer i = 0
    · rw [if_pos hz] at h
      rw [if_neg (not_not.mpr hz)]
      rcases h with rfl | h
      · exact inSpan_add_ofNat (by omega)
      · exact absurd h (Traced.not_touches_pure _)
    · rw [if_neg hz] at h
      rw [if_pos hz]
      rcases h with rfl | h
      · have hle := le_strlenLoop enterBuffer fuel (i + 1)
        exact inSpan_add_ofNat (by omega)
      · exact ih h

/-- `terminal_read`. -/
def terminalReadT (con : Console) (termNum : Term) (mem : Memory) (buf nbytes : Word) :
    Traced (Word × Console × Memory) :=
  if buf = 0 then pure (error, con, mem)
  else if con.MousePending then do
    let mem ← Traced.patch mem buf fnameSize con.mouseCommand
    let con := { con with
      mouseCommand := strncpy con.mouseCommand (cstr []) fnameSize
      enterFlag := Function.update con.enterFlag termNum 0
      currBuffPos := Function.update con.currBuffPos con.currentActiveTerminal 0
      inputBuffer := Function.update con.inputBuffer con.currentActiveTerminal fun _ => 0 }
    pure (BitVec.ofNat 32 fnameSize, con, mem)
  else do
    let con := { con with enterFlag := Function.update con.enterFlag termNum 0 }
    let (i, mem) ← terminalReadLoopT con.enterBuffer buf (readCount nbytes) 0 mem
    let mem ← Traced.store mem (buf + BitVec.ofNat 32 i) (chr '\n')
    pure (BitVec.ofNat 32 (i + 1), con, mem)

theorem val_terminalReadT (con : Console) (termNum : Term) (mem : Memory) (buf nbytes : Word) :
    (terminalReadT con termNum mem buf nbytes).val = terminalRead con termNum mem buf nbytes := by
  unfold terminalReadT terminalRead
  split
  · rfl
  · split
    · rfl
    · dsimp only
      rw [Traced.val_bind, (val_terminalReadLoopT _ _ _ _ _).1]
      rfl

/-- How many bytes `terminal_read` stores: the 32 of a mouse command, or a line and a newline. -/
def lineSize (con : Console) (nbytes : Word) : ℕ :=
  if con.MousePending then fnameSize else strlen con.enterBuffer (readCount nbytes) + 1

/-- `terminal_read` stores what it returns, which `nbytes` need not bound. -/
theorem touches_terminalReadT (con : Console) (termNum : Term) (mem : Memory) (nbytes : Word)
    (hbuf : buf ≠ 0) :
    (∀ a, (terminalReadT con termNum mem buf nbytes).Touches a →
      InSpan a buf (lineSize con nbytes)) ∧
    (terminalReadT con termNum mem buf nbytes).Touches
      (buf + BitVec.ofNat 32 (lineSize con nbytes - 1)) := by
  unfold terminalReadT lineSize
  rw [if_neg hbuf]
  by_cases hmouse : con.MousePending
  · rw [if_pos hmouse, if_pos hmouse]
    simp only [Traced.touches_bind, Traced.touches_patch, Traced.not_touches_pure, or_false]
    exact ⟨fun a h => h, inSpan_add_ofNat (by decide)⟩
  · rw [if_neg hmouse, if_neg hmouse]
    -- the loop of a line, and the newline stored behind it
    obtain ⟨hval, hlen⟩ := val_terminalReadLoopT con.enterBuffer buf (readCount nbytes) 0 mem
    rw [← hval] at hlen
    simp only [Traced.touches_bind, Traced.touches_store, Traced.not_touches_pure, or_false, hlen]
    unfold strlen
    constructor
    · intro a h
      rcases h with h | rfl
      · exact touches_terminalReadLoopT h
      · exact inSpan_add_ofNat (by omega)
    · exact Or.inr rfl

/-- `terminal_write`. -/
def terminalWriteT (con : Console) (mem : Memory) (buf nbytes : Word) : Traced (Word × Console) :=
  if buf = 0 then pure (error, con)
  else do
    let s ← Traced.bytes mem buf nbytes.toNat
    pure (nbytes, { con with written := con.written ++ s })

theorem val_terminalWriteT (con : Console) (mem : Memory) (buf nbytes : Word) :
    (terminalWriteT con mem buf nbytes).val = terminalWrite con mem buf nbytes := by
  unfold terminalWriteT terminalWrite
  split <;> rfl

/-- `rtc_write`: the only byte it reads is the first. -/
def rtcWriteT (rtc : Rtc) (mem : Memory) (buf : Word) : Traced (Word × Rtc) :=
  if buf = 0 then pure (error, rtc)
  else do
    let c ← Traced.load mem buf
    pure (rtcWrite rtc (fun _ => c) buf)

theorem val_rtcWriteT (rtc : Rtc) (mem : Memory) (buf : Word) :
    (rtcWriteT rtc mem buf).val = rtcWrite rtc mem buf := by
  unfold rtcWriteT
  split
  · rename_i h
    exact (if_pos h).symm
  · rfl

/-! ## The calls on descriptors -/

/-- The `read` of an operation table. -/
def FopsTable.readT (ops : FopsTable) (fs : Fs) (img : Memory) (term : Term) (fd : Fd) (w : World)
    (buf nbytes : Word) : Traced (Word × Fd × World) :=
  match ops with
  | .terminalFops => do
    let (ret, con, mem) ← terminalReadT w.con term w.mem buf nbytes
    pure (ret, fd, { w with con := con, mem := mem })
  | .rtcFops =>
    let (ret, rtc) := rtcRead w.rtc
    pure (ret, fd, { w with rtc := rtc })
  | .fileFops => do
    let (ret, fd, mem) ← fileReadT fs img fd w.mem buf nbytes
    pure (ret, fd, { w with mem := mem })
  | .dirFops => do
    let (ret, fd, mem) ← dirReadT fd w.dir w.mem buf nbytes
    pure (ret, fd, { w with mem := mem })

theorem val_readT (ops : FopsTable) (fs : Fs) (img : Memory) (term : Term) (fd : Fd) (w : World)
    (buf nbytes : Word) :
    (ops.readT fs img term fd w buf nbytes).val = ops.read fs img term fd w buf nbytes := by
  unfold FopsTable.readT FopsTable.read
  cases ops with
  | terminalFops =>
    dsimp only
    rw [Traced.val_bind, val_terminalReadT]
    rfl
  | rtcFops => rfl
  | fileFops =>
    dsimp only
    rw [Traced.val_bind, val_fileReadT]
    rfl
  | dirFops =>
    dsimp only
    rw [Traced.val_bind, val_dirReadT]
    rfl

/-- The `write` of an operation table. -/
def FopsTable.writeT (ops : FopsTable) (w : World) (buf nbytes : Word) : Traced (Word × World) :=
  match ops with
  | .terminalFops => do
    let (ret, con) ← terminalWriteT w.con w.mem buf nbytes
    pure (ret, { w with con := con })
  | .rtcFops => do
    let (ret, rtc) ← rtcWriteT w.rtc w.mem buf
    pure (ret, { w with rtc := rtc })
  | .fileFops => pure (fileWrite, w)
  | .dirFops => pure (dirWrite, w)

theorem val_writeT (ops : FopsTable) (w : World) (buf nbytes : Word) :
    (ops.writeT w buf nbytes).val = ops.write w buf nbytes := by
  unfold FopsTable.writeT FopsTable.write
  cases ops with
  | terminalFops =>
    dsimp only
    rw [Traced.val_bind, val_terminalWriteT]
    rfl
  | rtcFops =>
    dsimp only
    rw [Traced.val_bind, val_rtcWriteT]
    rfl
  | fileFops => rfl
  | dirFops => rfl

/-- `read`. -/
def sysReadT (fs : Fs) (img : Memory) (term : Term) (table : FdTable) (w : World)
    (fd buf nbytes : Word) : Traced (Option (Word × FdTable × World)) :=
  match checkFd 0 fd with
  | none => pure (some (error, table, w))
  | some i =>
    if accessOk buf = error then pure (some (error, table, w))
    else if i = 1 ∨ (table i).flags = 0 then pure (some (error, table, w))
    else
      match (table i).fopsP with
      | none => pure none
      | some ops => do
        let (ret, f, w) ← ops.readT fs img term (table i) w buf nbytes
        pure (some (ret, Function.update table i f, w))

theorem val_sysReadT (fs : Fs) (img : Memory) (term : Term) (table : FdTable) (w : World)
    (fd buf nbytes : Word) : (sysReadT fs img term table w fd buf nbytes).val
      = sysRead fs img term table w fd buf nbytes := by
  unfold sysReadT sysRead
  cases checkFd 0 fd with
  | none => rfl
  | some i =>
    dsimp only
    split
    · rfl
    · split
      · rfl
      · cases (table i).fopsP with
        | none => rfl
        | some ops =>
          dsimp only
          rw [Traced.val_bind, val_readT]
          rfl

/-- `write`. -/
def sysWriteT (table : FdTable) (w : World) (fd buf nbytes : Word) :
    Traced (Option (Word × FdTable × World)) :=
  match checkFd 0 fd with
  | none => pure (some (error, table, w))
  | some i =>
    if accessOk buf = error then pure (some (error, table, w))
    else if i = 0 ∨ (table i).flags = 0 then pure (some (error, table, w))
    else
      match (table i).fopsP with
      | none => pure none
      | some ops => do
        let (ret, w) ← ops.writeT w buf nbytes
        pure (some (ret, table, w))

theorem val_sysWriteT (table : FdTable) (w : World) (fd buf nbytes : Word) :
    (sysWriteT table w fd buf nbytes).val = sysWrite table w fd buf nbytes := by
  unfold sysWriteT sysWrite
  cases checkFd 0 fd with
  | none => rfl
  | some i =>
    dsimp only
    split
    · rfl
    · split
      · rfl
      · cases (table i).fopsP with
        | none => rfl
        | some ops =>
          dsimp only
          rw [Traced.val_bind, val_writeT]
          rfl

/-- `file_open` of a name at `p`. -/
def fileOpenT (fs : Fs) (img mem : Memory) (fd : Fd) (p : Word) : Traced (Word × Fd) := do
  match ← readDentryByNameT fs img mem p Dentry.uninit with
  | none => pure (error, fd)
  | some _ => pure (fileOpen fs img fd (mem.view p))

/-- `dir_open` of a name at `p`. -/
def dirOpenT (fs : Fs) (img mem : Memory) (fd : Fd) (p : Word) (dir : DirState) :
    Traced (Option (Word × Fd × DirState)) := do
  match ← readDentryByNameT fs img mem p Dentry.uninit with
  | none => pure (some (error, fd, dir))
  | some _ => pure (dirOpen fs img fd (mem.view p) dir)

/-- `open`: the name is read before its address is checked. -/
def sysOpenT (fs : Fs) (img : Memory) (table : FdTable) (w : World) (filename : Word) :
    Traced (Option (Word × FdTable × World)) :=
  if filename = 0 then pure (some (error, table, w))
  else do
    match ← readDentryByNameT fs img w.mem filename Dentry.uninit with
    | none => pure (some (error, table, w))
    | some entry =>
      if accessOk filename = error then pure (some (error, table, w))
      else
        match findFd table with
        | none => pure (some (error, table, w))
        | some fd =>
          let ret := BitVec.ofNat 32 fd.val
          if entry.type = rtcFile then
            let (_, f, rtc) := rtcOpen (table fd) w.rtc
            pure (some (ret, Function.update table fd f, { w with rtc := rtc }))
          else if entry.type = dirFile then do
            let opened ← dirOpenT fs img w.mem (table fd) filename w.dir
            pure (opened.map fun (_, f, dir) =>
              (ret, Function.update table fd f, { w with dir := dir }))
          else if entry.type = regFile then do
            let (_, f) ← fileOpenT fs img w.mem (table fd) filename
            pure (some (ret, Function.update table fd f, w))
          else pure (some (error, table, w))

theorem val_fileOpenT (fs : Fs) (img mem : Memory) (fd : Fd) (p : Word) :
    (fileOpenT fs img mem fd p).val = fileOpen fs img fd (mem.view p) := by
  unfold fileOpenT
  rw [Traced.val_bind, val_readDentryByNameT]
  cases h : readDentryByName fs img (mem.view p) Dentry.uninit with
  | none =>
    unfold fileOpen
    rw [h]
    rfl
  | some entry => rfl

theorem val_dirOpenT (fs : Fs) (img mem : Memory) (fd : Fd) (p : Word) (dir : DirState) :
    (dirOpenT fs img mem fd p dir).val = dirOpen fs img fd (mem.view p) dir := by
  unfold dirOpenT
  rw [Traced.val_bind, val_readDentryByNameT]
  cases h : readDentryByName fs img (mem.view p) Dentry.uninit with
  | none =>
    unfold dirOpen
    rw [h]
    rfl
  | some entry => rfl

theorem val_sysOpenT (fs : Fs) (img : Memory) (table : FdTable) (w : World) (filename : Word) :
    (sysOpenT fs img table w filename).val = sysOpen fs img table w filename := by
  unfold sysOpenT sysOpen
  split
  · rfl
  · rw [Traced.val_bind, val_readDentryByNameT]
    dsimp only
    cases readDentryByName fs img (w.mem.view filename) Dentry.uninit with
    | none => rfl
    | some entry =>
      dsimp only
      split
      · rfl
      · cases findFd table with
        | none => rfl
        | some fd =>
          dsimp only
          split
          · rfl
          · split
            · rw [Traced.val_bind, val_dirOpenT]
              rfl
            · split
              · rw [Traced.val_bind, val_fileOpenT]
                rfl
              · rfl

/-- `file_open` and `dir_open` read the name only to look it up. -/
theorem touches_fileOpenT {fd : Fd} (h : (fileOpenT fs img mem fd p).Touches a) :
    InString mem p a := by
  rw [fileOpenT, Traced.touches_bind] at h
  rcases h with h | h
  · exact touches_readDentryByNameT h
  · split at h <;> exact absurd h (Traced.not_touches_pure _)

theorem touches_dirOpenT {fd : Fd} {dir : DirState}
    (h : (dirOpenT fs img mem fd p dir).Touches a) : InString mem p a := by
  rw [dirOpenT, Traced.touches_bind] at h
  rcases h with h | h
  · exact touches_readDentryByNameT h
  · split at h <;> exact absurd h (Traced.not_touches_pure _)

/-- `open` reads no byte past the end of the name. -/
theorem touches_sysOpenT {table : FdTable} {w : World} {filename : Word}
    (h : (sysOpenT fs img table w filename).Touches a) : InString w.mem filename a := by
  unfold sysOpenT at h
  split at h
  · exact absurd h (Traced.not_touches_pure _)
  · rw [Traced.touches_bind] at h
    rcases h with h | h
    · exact touches_readDentryByNameT h
    · dsimp only at h
      -- of what follows the check only the second lookups read the name
      split at h
      · exact absurd h (Traced.not_touches_pure _)
      · split at h
        · exact absurd h (Traced.not_touches_pure _)
        · split at h
          · exact absurd h (Traced.not_touches_pure _)
          · split at h
            · exact absurd h (Traced.not_touches_pure _)
            · split at h
              · rw [Traced.touches_bind] at h
                exact touches_dirOpenT (h.resolve_right (Traced.not_touches_pure _))
              · split at h
                · rw [Traced.touches_bind] at h
                  exact touches_fileOpenT (h.resolve_right (Traced.not_touches_pure _))
                · exact absurd h (Traced.not_touches_pure _)

end HieUnix
