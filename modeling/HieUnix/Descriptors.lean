import HieUnix.Devices
import HieUnix.Directory
import HieUnix.Process

/-!
# The descriptor table of a process

`open`, `close`, `read` and `write` of `syscalls.c`, on the table of eight descriptors in the
control block of the calling process. They dispatch through the operation tables; a call that
would dispatch through a null table is `none`.

The table refines a finite map from the descriptors 2 to 7 to open files (`Fds`). The refinement
holds over every run of the calls: what the calls find in the globals of the file system, in the
devices and in the memory of the process may change in any way between them.
-/

namespace HieUnix

open Function

/-! ## The calls -/

/-- The descriptors of one process. -/
abbrev FdTable := Fin maxFileNum → Fd

/-- What the calls use besides the descriptors: the memory of the process, and the globals of the
file system and of the devices. -/
structure World where
  mem : Memory
  dir : DirState
  rtc : Rtc
  con : Console

/-- `access_ok`. -/
def accessOk (addr : Word) : Word :=
  if addr = 0 then error
  else if addr < userProgAddr ∨ videoAssignedMemAddr + pageSize4KB ≤ addr then error
  else 0

/-- The descriptor a call names, when it passes the check `fd < lo || fd >= MAX_FILE_NUM`. -/
def checkFd (lo : ℤ) (fd : Word) : Option (Fin maxFileNum) :=
  if fd.toInt < lo ∨ (maxFileNum : ℤ) ≤ fd.toInt then none else some (Fin.ofNat maxFileNum fd.toNat)

/-- The `read` of an operation table. -/
def FopsTable.read (ops : FopsTable) (fs : Fs) (img : Memory) (term : Term) (fd : Fd) (w : World)
    (buf nbytes : Word) : Word × Fd × World :=
  match ops with
  | .terminalFops =>
    let (ret, con, mem) := terminalRead w.con term w.mem buf nbytes
    (ret, fd, { w with con := con, mem := mem })
  | .rtcFops =>
    let (ret, rtc) := rtcRead w.rtc
    (ret, fd, { w with rtc := rtc })
  | .fileFops =>
    let (ret, fd, mem) := fileRead fs img fd w.mem buf nbytes
    (ret, fd, { w with mem := mem })
  | .dirFops =>
    let (ret, fd, mem) := dirRead fd w.dir w.mem buf nbytes
    (ret, fd, { w with mem := mem })

/-- The `write` of an operation table. No `write` changes its descriptor. -/
def FopsTable.write (ops : FopsTable) (w : World) (buf nbytes : Word) : Word × World :=
  match ops with
  | .terminalFops =>
    let (ret, con) := terminalWrite w.con w.mem buf nbytes
    (ret, { w with con := con })
  | .rtcFops =>
    let (ret, rtc) := rtcWrite w.rtc w.mem buf
    (ret, { w with rtc := rtc })
  | .fileFops => (fileWrite, w)
  | .dirFops => (dirWrite, w)

/-- The `close` of an operation table. -/
def FopsTable.close (ops : FopsTable) (fd : Fd) : Word × Fd :=
  match ops with
  | .terminalFops => (terminalClose, fd)
  | .rtcFops => rtcClose fd
  | .fileFops => fileClose fd
  | .dirFops => dirClose fd

/-- `read`. -/
def sysRead (fs : Fs) (img : Memory) (term : Term) (table : FdTable) (w : World)
    (fd buf nbytes : Word) : Option (Word × FdTable × World) :=
  match checkFd 0 fd with
  | none => some (error, table, w)
  | some i =>
    if accessOk buf = error then some (error, table, w)
    else if i = 1 ∨ (table i).flags = 0 then some (error, table, w)
    else
      (table i).fopsP.map fun ops =>
        let (ret, f, w) := ops.read fs img term (table i) w buf nbytes
        (ret, update table i f, w)

/-- `write`. -/
def sysWrite (table : FdTable) (w : World) (fd buf nbytes : Word) :
    Option (Word × FdTable × World) :=
  match checkFd 0 fd with
  | none => some (error, table, w)
  | some i =>
    if accessOk buf = error then some (error, table, w)
    else if i = 0 ∨ (table i).flags = 0 then some (error, table, w)
    else
      (table i).fopsP.map fun ops =>
        let (ret, w) := ops.write w buf nbytes
        (ret, table, w)

/-- The first descriptor that is not in use. -/
def findFd (table : FdTable) : Option (Fin maxFileNum) :=
  (List.finRange maxFileNum).find? fun fd => (table fd).flags = 0

/-- `open`. It looks the name up before it checks the pointer. `none` also stands for a name in
the directory that leaves its entry. -/
def sysOpen (fs : Fs) (img : Memory) (table : FdTable) (w : World) (filename : Word) :
    Option (Word × FdTable × World) :=
  if filename = 0 then some (error, table, w)
  else
    let fname := w.mem.view filename
    match readDentryByName fs img fname Dentry.uninit with
    | none => some (error, table, w)
    | some entry =>
      if accessOk filename = error then some (error, table, w)
      else
        match findFd table with
        | none => some (error, table, w)
        | some fd =>
          let ret := BitVec.ofNat 32 fd.val
          if entry.type = rtcFile then
            let (_, f, rtc) := rtcOpen (table fd) w.rtc
            some (ret, update table fd f, { w with rtc := rtc })
          else if entry.type = dirFile then
            (dirOpen fs img (table fd) fname w.dir).map fun (_, f, dir) =>
              (ret, update table fd f, { w with dir := dir })
          else if entry.type = regFile then
            let (_, f) := fileOpen fs img (table fd) fname
            some (ret, update table fd f, w)
          else some (error, table, w)

/-- `close`. -/
def sysClose (table : FdTable) (fd : Word) : Option (Word × FdTable) :=
  match checkFd 2 fd with
  | none => some (error, table)
  | some i =>
    if (table i).flags = 0 then some (error, table)
    else
      (table i).fopsP.map fun ops =>
        let (ret, f) := ops.close (table i)
        (ret, update table i f)

/-! ## The map from descriptors to open files -/

/-- What an open descriptor stands for. -/
inductive Kind
  | rtc
  | dir
  | file (inode : Word)
deriving DecidableEq, Repr

/-- An open file. -/
structure OpenFile where
  kind : Kind
  pos : Word
deriving DecidableEq, Repr

/-- A descriptor that can be opened and closed. -/
abbrev Descr := {fd : Fin maxFileNum // 2 ≤ fd.val}

/-- The open files of a process. -/
abbrev Fds := Descr → Option OpenFile

/-- The value that names a descriptor. -/
def Descr.num (d : Descr) : Word := BitVec.ofNat 32 d.val.val

/-- What the name of a file stands for, when it is in the directory and of a known type. -/
def lookup (fs : Fs) (img : Memory) (fname : ℕ → Byte) : Option Kind :=
  (readDentryByName fs img fname Dentry.uninit).bind fun entry =>
    if entry.type = rtcFile then some .rtc
    else if entry.type = dirFile then some .dir
    else if entry.type = regFile then some (.file entry.inode)
    else none

/-- The first descriptor that is free. -/
structure Fds.IsFirstFree (u : Fds) (d : Descr) : Prop where
  free : u d = none
  first : ∀ d' < d, u d' ≠ none

/-- `open` binds the first free descriptor to what the name stands for, at position 0; it fails
exactly when the name stands for nothing or no descriptor is free, and then changes nothing. -/
def Fds.Opens (kind : Option Kind) (u : Fds) (ret : Word) (u' : Fds) : Prop :=
  (∃ k d, kind = some k ∧ u.IsFirstFree d ∧ ret = d.num ∧ u' = update u d (some ⟨k, 0⟩)) ∨
    ((kind = none ∨ ∀ d, u d ≠ none) ∧ ret = error ∧ u' = u)

/-- `close` frees the descriptor it names, and fails exactly when that is not open. -/
def Fds.Closes (u : Fds) (fd ret : Word) (u' : Fds) : Prop :=
  (∃ d, fd = d.num ∧ u d ≠ none ∧ ret = 0 ∧ u' = update u d none) ∨
    ((∀ d : Descr, fd = d.num → u d = none) ∧ ret = error ∧ u' = u)

/-- `read` moves the position of the descriptor it names, when that is open, and of no other;
of descriptors that are not open it reads only the terminal, at 0. -/
def Fds.Reads (u : Fds) (fd ret : Word) (u' : Fds) : Prop :=
  (∃ d f pos, fd = d.num ∧ u d = some f ∧ u' = update u d (some { f with pos := pos })) ∨
    ((∀ d : Descr, fd = d.num → u d = none) ∧ (fd ≠ 0 → ret = error) ∧ u' = u)

/-- `write` changes no descriptor, and fails on those that are not open, except the terminal
at 1. -/
def Fds.Writes (u : Fds) (fd ret : Word) (u' : Fds) : Prop :=
  ((∀ d : Descr, fd = d.num → u d = none) → fd ≠ 1 → ret = error) ∧ u' = u

/-! ## Runs -/

/-- What happens to the table: a call, with what it returned, or anything that is not a call of
this process. `name` is the string that `filename` points to. -/
inductive FdEvent
  | open (filename : Word) (name : ℕ → Byte) (ret : Word)
  | close (fd ret : Word)
  | read (fd buf nbytes ret : Word)
  | write (fd buf nbytes ret : Word)
  | other

/-- The calls of one process of terminal `term` with valid pointers, from `initialize_pcb` on.
Between them the globals and the memory may change. -/
def fdLTS (fs : Fs) (img : Memory) (term : Term) : LTS (FdTable × World) FdEvent where
  init q := ∃ i p, q.1 = (initializePcb term i p).fileDesc
  step q ev q' :=
    match ev with
    | .open filename name ret => accessOk filename = 0 ∧ name = q.2.mem.view filename ∧
        sysOpen fs img q.1 q.2 filename = some (ret, q')
    | .close fd ret => sysClose q.1 fd = some (ret, q'.1) ∧ q'.2 = q.2
    | .read fd buf nbytes ret => accessOk buf = 0 ∧
        sysRead fs img term q.1 q.2 fd buf nbytes = some (ret, q')
    | .write fd buf nbytes ret => accessOk buf = 0 ∧
        sysWrite q.1 q.2 fd buf nbytes = some (ret, q')
    | .other => q'.1 = q.1

/-- The calls on the map. -/
def fdsLTS (fs : Fs) (img : Memory) : LTS Fds FdEvent where
  init u := u = fun _ => none
  step u ev u' :=
    match ev with
    | .open _ name ret => Fds.Opens (lookup fs img name) u ret u'
    | .close fd ret => Fds.Closes u fd ret u'
    | .read fd _ _ ret => Fds.Reads u fd ret u'
    | .write fd _ _ ret => Fds.Writes u fd ret u'
    | .other => u' = u

/-! ## The relation -/

/-- The descriptor of an open file. -/
def OpenFile.fd (fs : Fs) (f : OpenFile) : Fd :=
  match f.kind with
  | .rtc => ⟨some .rtcFops, 0, f.pos, 1⟩
  | .dir => ⟨some .dirFops, 0, f.pos, 1⟩
  | .file inode => ⟨some .fileFops, fs.inodeAddr inode, f.pos, 1⟩

/-- The descriptor of an entry of the map. -/
def entryFd (fs : Fs) : Option OpenFile → Fd
  | none => Fd.closed
  | some f => f.fd fs

/-- The table of a map: the terminal twice, and the descriptors of its entries. -/
def Fds.table (fs : Fs) (u : Fds) : FdTable := fun i =>
  if h : 2 ≤ i.val then entryFd fs (u ⟨i, h⟩) else Fd.terminal

variable {fs : Fs} {img : Memory} {term : Term} {u u' : Fds} {w : World} {d : Descr}
  {fd buf nbytes : Word}

theorem flags_entryFd (fs : Fs) (o : Option OpenFile) : (entryFd fs o).flags = 0 ↔ o = none := by
  cases o with
  | none => exact iff_of_true rfl rfl
  | some f =>
    have hone : (f.fd fs).flags = 1 := by
      unfold OpenFile.fd
      split <;> rfl
    show (f.fd fs).flags = 0 ↔ some f = none
    rw [hone]
    exact iff_of_false (by decide) (Option.some_ne_none f)

/-- `flags` and `fops_p` say the same. -/
theorem flags_table (fs : Fs) (u : Fds) (i : Fin maxFileNum) :
    (u.table fs i).flags = 1 ↔ (u.table fs i).fopsP ≠ none := by
  unfold Fds.table
  split
  · unfold entryFd
    split
    · exact iff_of_false (by decide) (by decide)
    · unfold OpenFile.fd
      split <;> exact iff_of_true rfl (Option.some_ne_none _)
  · exact iff_of_true rfl (Option.some_ne_none _)

theorem table_of_lt (fs : Fs) (u : Fds) {i : Fin maxFileNum} (h : i.val < 2) :
    u.table fs i = Fd.terminal :=
  dif_neg (Nat.not_le.mpr h)

@[simp] theorem table_val (fs : Fs) (u : Fds) (d : Descr) :
    u.table fs d.val = entryFd fs (u d) :=
  dif_pos d.property

/-- Changing the descriptor of an entry changes the entry. -/
theorem update_table (fs : Fs) (u : Fds) (d : Descr) (o : Option OpenFile) :
    update (u.table fs) d.val (entryFd fs o) = Fds.table fs (update u d o) := by
  funext i
  by_cases hi : i = d.val
  · rw [hi, update_self, table_val, update_self]
  · rw [update_of_ne hi]
    unfold Fds.table
    split
    · rename_i h
      have hne : (⟨i, h⟩ : Descr) ≠ d := fun he => hi (congrArg Subtype.val he)
      rw [update_of_ne hne]
    · rfl

/-- The table of `initialize_pcb` is that of the empty map. -/
theorem initializePcb_table (fs : Fs) (term : Term) (i : Slot) (p : Pcb) :
    (initializePcb term i p).fileDesc = Fds.table fs fun _ => none := by
  funext fd
  unfold initializePcb Fds.table
  by_cases h : fd.val < 2
  · rw [dif_neg (Nat.not_le.mpr h)]
    exact if_pos h
  · rw [dif_pos (Nat.not_lt.mp h)]
    exact if_neg h

/-! ## Naming a descriptor -/

theorem checkFd_ofNat : ∀ i : Fin maxFileNum, checkFd 0 (BitVec.ofNat 32 i.val) = some i := by
  decide

/-- The check lets through only the numbers of descriptors. -/
theorem checkFd_eq_some {lo : ℤ} (hlo : 0 ≤ lo) {i : Fin maxFileNum} (h : checkFd lo fd = some i) :
    fd = BitVec.ofNat 32 i.val ∧ lo ≤ i.val := by
  unfold checkFd at h
  split at h
  · cases h
  · rename_i hrange
    have hcond := BitVec.toInt_eq_toNat_cond fd
    have hlt := fd.isLt
    have hnat : fd.toNat < 8 ∧ lo ≤ fd.toNat := by
      simp only [maxFileNum] at hrange
      split at hcond <;> omega
    have hi : i.val = fd.toNat := by
      rw [← Option.some.inj h]
      exact Nat.mod_eq_of_lt hnat.1
    rw [hi]
    exact ⟨by bv_omega, hnat.2⟩

/-- Numbers name one descriptor each. -/
theorem eq_val_of_num {i : Fin maxFileNum} {d : Descr} (h : BitVec.ofNat 32 i.val = d.num) :
    i = d.val := by
  have hd := checkFd_ofNat d.val
  unfold Descr.num at h
  rw [← h, checkFd_ofNat] at hd
  exact Option.some.inj hd

/-- A number that a check turns away names no descriptor from `lo` on. -/
theorem ne_ofNat_of_checkFd_eq_none {lo : ℤ} (h : checkFd lo fd = none) {i : Fin maxFileNum}
    (hi : lo ≤ i.val) : fd ≠ BitVec.ofNat 32 i.val := by
  rintro rfl
  have hint : (BitVec.ofNat 32 i.val).toInt = i.val := by
    have hlt := i.isLt
    simp only [maxFileNum] at hlt
    rw [BitVec.toInt_eq_toNat_cond, BitVec.toNat_ofNat, Nat.mod_eq_of_lt (by omega),
      if_pos (by omega)]
  have hlt : (i.val : ℤ) < maxFileNum := Int.ofNat_lt.mpr i.isLt
  unfold checkFd at h
  rw [hint, if_neg (by omega)] at h
  cases h

/-! ## One call -/

/-- The search of `open` finds the first free descriptor. -/
theorem findFd_table (fs : Fs) (u : Fds) :
    (findFd (u.table fs) = none ∧ ∀ d, u d ≠ none) ∨
      ∃ d, findFd (u.table fs) = some d.val ∧ u.IsFirstFree d := by
  cases h : findFd (u.table fs) with
  | none =>
    refine Or.inl ⟨rfl, fun d hd => ?_⟩
    have hnone := List.find?_eq_none.mp h d.val (List.mem_finRange d.val)
    rw [table_val, decide_eq_true_iff, flags_entryFd] at hnone
    exact hnone hd
  | some i =>
    obtain ⟨hfree, j, hj, hji, hbefore⟩ := List.find?_eq_some_iff_getElem.mp h
    rw [List.getElem_finRange] at hji
    have hflags : (u.table fs i).flags = 0 := of_decide_eq_true hfree
    -- 0 and 1 are the terminal's and never free, so what is found is in the map
    have h2 : 2 ≤ i.val := by
      by_contra hlt
      rw [table_of_lt fs u (Nat.not_le.mp hlt)] at hflags
      exact absurd hflags (by decide)
    refine Or.inr ⟨⟨i, h2⟩, rfl, ?_, fun d' hd' hd'' => ?_⟩
    · rw [← flags_entryFd fs, ← table_val]
      exact hflags
    · -- a free descriptor before it would have been found
      have hlt : d'.val.val < j := by
        have : i.val = j := by rw [← hji]; rfl
        rw [← this]
        exact hd'
      have hnot := hbefore d'.val.val hlt
      rw [List.getElem_finRange] at hnot
      have hused : ¬ (u.table fs d'.val).flags = 0 := by simpa using hnot
      apply hused
      rw [table_val, flags_entryFd]
      exact hd''

/-- A `read` moves the position of its descriptor and changes nothing else in it. -/
theorem read_fd (ops : FopsTable) (fs : Fs) (img : Memory) (term : Term) (fd : Fd) (w : World)
    (buf nbytes : Word) :
    ∃ ret pos w', ops.read fs img term fd w buf nbytes = (ret, { fd with filePos := pos }, w') := by
  cases ops with
  | terminalFops => exact ⟨_, fd.filePos, _, rfl⟩
  | rtcFops => exact ⟨_, fd.filePos, _, rfl⟩
  | fileFops =>
    unfold FopsTable.read fileRead
    dsimp only
    split
    · exact ⟨_, fd.filePos, _, rfl⟩
    · exact ⟨_, _, _, rfl⟩
  | dirFops =>
    unfold FopsTable.read dirRead
    dsimp only
    split <;> exact ⟨_, _, _, rfl⟩

/-- The descriptor of an open file after its position has moved. -/
theorem fd_withPos (fs : Fs) (f : OpenFile) (pos : Word) :
    { f.fd fs with filePos := pos } = OpenFile.fd fs { f with pos := pos } := by
  obtain ⟨kind, _⟩ := f
  cases kind <;> rfl

/-- An open file is open under one of the operation tables, and `close` of it resets the
descriptor. -/
theorem exists_fops (fs : Fs) (f : OpenFile) :
    ∃ ops, (f.fd fs).fopsP = some ops ∧ ops.close (f.fd fs) = (0, Fd.closed) := by
  unfold OpenFile.fd
  split <;> exact ⟨_, rfl, rfl⟩

/-- A `read` that fails leaves everything as it is. -/
theorem reads_self (u : Fds) (fd : Word) : u.Reads fd error u := by
  by_cases h : ∃ d f, fd = d.num ∧ u d = some f
  · obtain ⟨d, f, hd, hf⟩ := h
    refine Or.inl ⟨d, f, f.pos, hd, hf, ?_⟩
    rw [← hf, update_eq_self]
  · refine Or.inr ⟨fun d hd => ?_, fun _ => rfl, rfl⟩
    cases hf : u d with
    | none => rfl
    | some f => exact absurd ⟨d, f, hd, hf⟩ h

/-- The two descriptors of the terminal name no entry of the map. -/
theorem ne_num_of_lt {i : Fin maxFileNum} (h : i.val < 2) (d : Descr) :
    BitVec.ofNat 32 i.val ≠ d.num := by
  intro heq
  rw [eq_val_of_num heq] at h
  exact absurd d.property (Nat.not_le.mpr h)

/-- A descriptor in use that is not the terminal's is that of an open file. -/
theorem exists_openFile {i : Fin maxFileNum} (h2 : 2 ≤ i.val) (hopen : (u.table fs i).flags ≠ 0) :
    ∃ (d : Descr) (f : OpenFile), d.val = i ∧ u d = some f ∧ u.table fs i = f.fd fs := by
  have hentry : u.table fs i = entryFd fs (u ⟨i, h2⟩) := table_val fs u ⟨i, h2⟩
  rw [hentry, Ne, flags_entryFd] at hopen
  obtain ⟨f, hf⟩ := Option.ne_none_iff_exists'.mp hopen
  rw [hf] at hentry
  exact ⟨⟨i, h2⟩, f, rfl, hf, hentry⟩

/-- `read` never dispatches through a null table, and moves only the position of its
descriptor. -/
theorem sysRead_table (fs : Fs) (img : Memory) (term : Term) (u : Fds) (w : World)
    (fd buf nbytes : Word) :
    ∃ ret u' w', sysRead fs img term (u.table fs) w fd buf nbytes = some (ret, u'.table fs, w') ∧
      u.Reads fd ret u' := by
  unfold sysRead
  cases hfd : checkFd 0 fd with
  | none => exact ⟨error, u, w, rfl, reads_self u fd⟩
  | some i =>
    obtain ⟨rfl, -⟩ := checkFd_eq_some le_rfl hfd
    dsimp only
    by_cases hbuf : accessOk buf = error
    · rw [if_pos hbuf]
      exact ⟨error, u, w, rfl, reads_self u _⟩
    rw [if_neg hbuf]
    -- descriptor 1 and one that is not open are turned away
    by_cases hclosed : i = 1 ∨ (u.table fs i).flags = 0
    · rw [if_pos hclosed]
      exact ⟨error, u, w, rfl, reads_self u _⟩
    rw [if_neg hclosed]
    obtain ⟨hone, hopen⟩ := not_or.mp hclosed
    by_cases hi : i.val < 2
    · -- the terminal at 0, whose descriptor no `read` changes
      have hterm := table_of_lt fs u hi
      have hzero : i = 0 := by
        simp only [Fin.ext_iff, Fin.val_one, Fin.val_zero] at hone ⊢
        omega
      have hnum : BitVec.ofNat 32 i.val = 0 := by rw [hzero]; rfl
      obtain ⟨ret, w', hread⟩ : ∃ ret w',
          FopsTable.terminalFops.read fs img term Fd.terminal w buf nbytes
            = (ret, Fd.terminal, w') := ⟨_, _, rfl⟩
      refine ⟨ret, u, w', ?_, Or.inr ⟨fun d hd => absurd hd (ne_num_of_lt hi d),
        fun h => absurd hnum h, rfl⟩⟩
      have hsome : Fd.terminal.fopsP = some .terminalFops := rfl
      rw [hterm, hsome, Option.map_some, hread]
      dsimp only
      rw [← hterm, update_eq_self]
    · obtain ⟨d, f, rfl, hf, hentry⟩ := exists_openFile (Nat.not_lt.mp hi) hopen
      obtain ⟨ops, hops, -⟩ := exists_fops fs f
      obtain ⟨ret, pos, w', hread⟩ := read_fd ops fs img term (f.fd fs) w buf nbytes
      refine ⟨ret, update u d (some { f with pos := pos }), w', ?_,
        Or.inl ⟨d, f, pos, rfl, hf, rfl⟩⟩
      rw [fd_withPos] at hread
      rw [hentry, hops, Option.map_some, hread, ← update_table]
      rfl

/-- `write` never dispatches through a null table, and changes no descriptor. -/
theorem sysWrite_table (fs : Fs) (u : Fds) (w : World) (fd buf nbytes : Word) :
    ∃ ret u' w', sysWrite (u.table fs) w fd buf nbytes = some (ret, u'.table fs, w') ∧
      u.Writes fd ret u' := by
  unfold sysWrite
  cases hfd : checkFd 0 fd with
  | none => exact ⟨error, u, w, rfl, fun _ _ => rfl, rfl⟩
  | some i =>
    obtain ⟨rfl, -⟩ := checkFd_eq_some le_rfl hfd
    dsimp only
    by_cases hbuf : accessOk buf = error
    · rw [if_pos hbuf]
      exact ⟨error, u, w, rfl, fun _ _ => rfl, rfl⟩
    rw [if_neg hbuf]
    by_cases hclosed : i = 0 ∨ (u.table fs i).flags = 0
    · rw [if_pos hclosed]
      exact ⟨error, u, w, rfl, fun _ _ => rfl, rfl⟩
    rw [if_neg hclosed]
    obtain ⟨hzero, hopen⟩ := not_or.mp hclosed
    by_cases hi : i.val < 2
    -- of the two terminal descriptors `write` takes only 1
    · have hone : i = 1 := by
        simp only [Fin.ext_iff, Fin.val_one, Fin.val_zero] at hzero ⊢
        omega
      have hnum : BitVec.ofNat 32 i.val = 1 := by rw [hone]; rfl
      rw [table_of_lt fs u hi]
      exact ⟨_, u, _, rfl, fun _ h => absurd hnum h, rfl⟩
    · obtain ⟨d, f, rfl, hf, hentry⟩ := exists_openFile (Nat.not_lt.mp hi) hopen
      obtain ⟨ops, hops, -⟩ := exists_fops fs f
      rw [hentry, hops]
      refine ⟨_, u, _, rfl, fun h => ?_, rfl⟩
      rw [h d rfl] at hf
      cases hf

/-- `close` never dispatches through a null table, and frees the descriptor it names when that
is open. -/
theorem sysClose_table (fs : Fs) (u : Fds) (fd : Word) :
    ∃ ret u', sysClose (u.table fs) fd = some (ret, u'.table fs) ∧ u.Closes fd ret u' := by
  unfold sysClose
  cases hfd : checkFd 2 fd with
  | none =>
    refine ⟨error, u, rfl, Or.inr ⟨fun d hd => ?_, rfl, rfl⟩⟩
    exact absurd hd (ne_ofNat_of_checkFd_eq_none hfd (Int.ofNat_le.mpr d.property))
  | some i =>
    obtain ⟨rfl, h2⟩ := checkFd_eq_some (by decide) hfd
    dsimp only
    by_cases hclosed : (u.table fs i).flags = 0
    · rw [if_pos hclosed]
      refine ⟨error, u, rfl, Or.inr ⟨fun d hd => ?_, rfl, rfl⟩⟩
      rw [eq_val_of_num hd, table_val, flags_entryFd] at hclosed
      exact hclosed
    · rw [if_neg hclosed]
      obtain ⟨d, f, rfl, hf, hentry⟩ := exists_openFile (Int.ofNat_le.mp h2) hclosed
      obtain ⟨ops, hops, hclose⟩ := exists_fops fs f
      have hopen : u d ≠ none := by rw [hf]; exact Option.some_ne_none f
      refine ⟨0, update u d none, ?_, Or.inl ⟨d, rfl, hopen, rfl, rfl⟩⟩
      rw [hentry, hops, Option.map_some, hclose, ← update_table]
      rfl

/-- A pointer in the window is not null. -/
theorem ne_zero_of_accessOk {addr : Word} (h : accessOk addr = 0) : addr ≠ 0 := by
  rintro rfl
  exact absurd h (by decide)

/-- `open` of a name that stands for nothing fails and changes nothing. -/
theorem sysOpen_of_lookup_eq_none {filename : Word}
    (hk : lookup fs img (w.mem.view filename) = none) (table : FdTable) :
    sysOpen fs img table w filename = some (error, table, w) := by
  unfold sysOpen
  dsimp only
  split
  · rfl
  · split
    · rfl
    · rename_i entry hentry
      split
      · rfl
      · split
        · rfl
        -- an entry of a type `open` does not know
        · unfold lookup at hk
          rw [hentry, Option.bind_some] at hk
          by_cases hrtc : entry.type = rtcFile
          · rw [if_pos hrtc] at hk
            cases hk
          rw [if_neg hrtc] at hk ⊢
          by_cases hdir : entry.type = dirFile
          · rw [if_pos hdir] at hk
            cases hk
          rw [if_neg hdir] at hk ⊢
          by_cases hreg : entry.type = regFile
          · rw [if_pos hreg] at hk
            cases hk
          rw [if_neg hreg]

/-- What a name stands for is the type of its entry. -/
theorem exists_entry_of_lookup {fname : ℕ → Byte} {k : Kind} (hk : lookup fs img fname = some k) :
    ∃ entry, readDentryByName fs img fname Dentry.uninit = some entry ∧
      (entry.type = rtcFile ∧ k = .rtc ∨ entry.type = dirFile ∧ k = .dir ∨
        entry.type = regFile ∧ k = .file entry.inode) := by
  obtain ⟨entry, hentry, htype⟩ := Option.bind_eq_some_iff.mp hk
  refine ⟨entry, hentry, ?_⟩
  by_cases hrtc : entry.type = rtcFile
  · rw [if_pos hrtc, Option.some.injEq] at htype
    exact Or.inl ⟨hrtc, htype.symm⟩
  rw [if_neg hrtc] at htype
  by_cases hdir : entry.type = dirFile
  · rw [if_pos hdir, Option.some.injEq] at htype
    exact Or.inr (Or.inl ⟨hdir, htype.symm⟩)
  rw [if_neg hdir] at htype
  by_cases hreg : entry.type = regFile
  · rw [if_pos hreg, Option.some.injEq] at htype
    exact Or.inr (Or.inr ⟨hreg, htype.symm⟩)
  · rw [if_neg hreg] at htype
    cases htype

/-- `open` of a name that stands for something fails when no descriptor is free, and otherwise
stores the kind of the entry at position 0. -/
theorem sysOpen_of_lookup (hgood : fs.GoodDir img) {filename : Word} {k : Kind}
    (hptr : accessOk filename = 0) (hk : lookup fs img (w.mem.view filename) = some k)
    (table : FdTable) :
    ∃ w', sysOpen fs img table w filename =
      match findFd table with
      | none => some (error, table, w')
      | some i => some (BitVec.ofNat 32 i.val, update table i (OpenFile.fd fs ⟨k, 0⟩), w') := by
  obtain ⟨entry, hentry, htype⟩ := exists_entry_of_lookup hk
  have hok : accessOk filename ≠ error := by rw [hptr]; decide
  unfold sysOpen
  rw [if_neg (ne_zero_of_accessOk hptr)]
  dsimp only
  rw [hentry]
  dsimp only
  rw [if_neg hok]
  cases hi : findFd table with
  | none => exact ⟨w, rfl⟩
  | some i =>
    dsimp only
    rcases htype with ⟨hrtc, rfl⟩ | ⟨hdir, rfl⟩ | ⟨hreg, rfl⟩
    · rw [if_pos hrtc]
      exact ⟨_, rfl⟩
    · -- the second lookup, in `dir_open`, finds the same entry
      obtain ⟨dir', hopen, -⟩ := dirOpen_eq hentry hdir hgood (table i) w.dir
      rw [hdir, if_neg (by decide), if_pos rfl, hopen]
      exact ⟨_, rfl⟩
    · rw [hreg, if_neg (by decide), if_neg (by decide), if_pos rfl, fileOpen, hentry]
      dsimp only
      rw [if_pos hreg]
      exact ⟨w, rfl⟩

/-- `open` on a sound directory never goes wrong, and does to the map what it should. -/
theorem sysOpen_table (hgood : fs.GoodDir img) (u : Fds) (w : World) {filename : Word}
    (hptr : accessOk filename = 0) :
    ∃ ret u' w', sysOpen fs img (u.table fs) w filename = some (ret, u'.table fs, w') ∧
      Fds.Opens (lookup fs img (w.mem.view filename)) u ret u' := by
  cases hk : lookup fs img (w.mem.view filename) with
  | none =>
    exact ⟨error, u, w, sysOpen_of_lookup_eq_none hk _, Or.inr ⟨Or.inl rfl, rfl, rfl⟩⟩
  | some k =>
    obtain ⟨w', hopen⟩ := sysOpen_of_lookup hgood hptr hk (u.table fs)
    rcases findFd_table fs u with ⟨hnone, hfull⟩ | ⟨d, hsome, hfirst⟩
    · rw [hnone] at hopen
      exact ⟨error, u, w', hopen, Or.inr ⟨Or.inr hfull, rfl, rfl⟩⟩
    · rw [hsome] at hopen
      refine ⟨d.num, update u d (some ⟨k, 0⟩), w', ?_, Or.inl ⟨k, d, rfl, hfirst, rfl, rfl⟩⟩
      rw [hopen, ← update_table]
      rfl

/-! ## The refinement -/

/-- Every call refines the call on the map. -/
theorem fdLTS_simulates (hgood : fs.GoodDir img) (term : Term) :
    (fdLTS fs img term).Simulates (fdsLTS fs img) fun q u => q.1 = u.table fs := by
  constructor
  · intro q ⟨i, p, hq⟩
    -- the first call of a process finds the table `initialize_pcb` has left
    exact ⟨fun _ => none, rfl, hq.trans (initializePcb_table fs term i p)⟩
  · intro q ev q' u hq hst
    obtain ⟨table, w⟩ := q
    obtain rfl : table = u.table fs := hq
    cases ev with
    | «open» filename name ret =>
      obtain ⟨hptr, rfl, hcall⟩ := hst
      obtain ⟨ret', u', w', hcall', hspec⟩ := sysOpen_table hgood u w hptr
      obtain ⟨rfl, rfl⟩ := Prod.mk.inj (Option.some.inj (hcall.symm.trans hcall'))
      exact ⟨u', hspec, rfl⟩
    | close fd ret =>
      obtain ⟨hcall, -⟩ := hst
      obtain ⟨ret', u', hcall', hspec⟩ := sysClose_table fs u fd
      obtain ⟨rfl, htable⟩ := Prod.mk.inj (Option.some.inj (hcall.symm.trans hcall'))
      exact ⟨u', hspec, htable⟩
    | read fd buf nbytes ret =>
      obtain ⟨-, hcall⟩ := hst
      obtain ⟨ret', u', w', hcall', hspec⟩ := sysRead_table fs img term u w fd buf nbytes
      obtain ⟨rfl, rfl⟩ := Prod.mk.inj (Option.some.inj (hcall.symm.trans hcall'))
      exact ⟨u', hspec, rfl⟩
    | write fd buf nbytes ret =>
      obtain ⟨-, hcall⟩ := hst
      obtain ⟨ret', u', w', hcall', hspec⟩ := sysWrite_table fs u w fd buf nbytes
      obtain ⟨rfl, rfl⟩ := Prod.mk.inj (Option.some.inj (hcall.symm.trans hcall'))
      exact ⟨u', hspec, rfl⟩
    | other => exact ⟨u, rfl, hst⟩

/-- A `read` or a `close` of the map leaves every other descriptor as it is. -/
theorem eq_of_reads_or_closes {ret : Word} (h : u.Reads fd ret u' ∨ u.Closes fd ret u')
    (hd : fd ≠ d.num) : u' d = u d := by
  have hne : ∀ {e : Descr}, fd = e.num → d ≠ e := by
    rintro e he rfl
    exact hd he
  rcases h with (⟨e, f, pos, he, -, rfl⟩ | ⟨-, -, rfl⟩) | (⟨e, he, -, -, rfl⟩ | ⟨-, -, rfl⟩)
  · exact update_of_ne (hne he) _ _
  · rfl
  · exact update_of_ne (hne he) _ _
  · rfl

/-- The same of the table. -/
theorem table_eq_of_reads_or_closes {ret : Word} (h : u.Reads fd ret u' ∨ u.Closes fd ret u')
    {i : Fin maxFileNum} (hi : fd ≠ BitVec.ofNat 32 i.val) : u'.table fs i = u.table fs i := by
  unfold Fds.table
  split
  · rename_i h2
    have hentry : u' ⟨i, h2⟩ = u ⟨i, h2⟩ := eq_of_reads_or_closes h hi
    rw [hentry]
  · rfl

/-- **The descriptor table is a finite map.** On a sound directory, the calls of a process refine
the calls on the map from the descriptors 2 to 7 to open files. In every state of a run the first
two descriptors are the terminal, `flags` and `fops_p` agree, no call dispatches through a null
table, and a `read` or `close` leaves the descriptors it does not name as they are. -/
theorem fileDesc_refines (hgood : fs.GoodDir img) (term : Term) :
    (fdLTS fs img term).Simulates (fdsLTS fs img) (fun q u => q.1 = u.table fs) ∧
      ∀ q, (fdLTS fs img term).Reach LTS.always q →
        q.1 0 = Fd.terminal ∧ q.1 1 = Fd.terminal ∧
        (∀ i, (q.1 i).flags = 1 ↔ (q.1 i).fopsP ≠ none) ∧
        (∀ filename, accessOk filename = 0 → sysOpen fs img q.1 q.2 filename ≠ none) ∧
        (∀ fd, sysClose q.1 fd ≠ none) ∧
        (∀ fd buf nbytes, sysRead fs img term q.1 q.2 fd buf nbytes ≠ none) ∧
        (∀ fd buf nbytes, sysWrite q.1 q.2 fd buf nbytes ≠ none) ∧
        ∀ ev q' fd, (fdLTS fs img term).step q ev q' →
          (∃ ret, ev = .close fd ret ∨ ∃ buf nbytes, ev = .read fd buf nbytes ret) →
          ∀ i : Fin maxFileNum, fd ≠ BitVec.ofNat 32 i.val → q'.1 i = q.1 i := by
  have hsim := fdLTS_simulates hgood term
  refine ⟨hsim, fun q hq => ?_⟩
  -- the table of the process is that of a finite map, from which all the rest follows
  obtain ⟨u, -, hu⟩ := hsim.reach hq
  refine ⟨?_, ?_, ?_, ?_, ?_, ?_, ?_, ?_⟩
  · rw [hu]
    exact table_of_lt fs u (by decide)
  · rw [hu]
    exact table_of_lt fs u (by decide)
  · rw [hu]
    exact flags_table fs u
  · intro filename hptr
    obtain ⟨_, _, _, hcall, -⟩ := sysOpen_table hgood u q.2 hptr
    rw [hu, hcall]
    exact Option.some_ne_none _
  · intro fd
    obtain ⟨_, _, hcall, -⟩ := sysClose_table fs u fd
    rw [hu, hcall]
    exact Option.some_ne_none _
  · intro fd buf nbytes
    obtain ⟨_, _, _, hcall, -⟩ := sysRead_table fs img term u q.2 fd buf nbytes
    rw [hu, hcall]
    exact Option.some_ne_none _
  · intro fd buf nbytes
    obtain ⟨_, _, _, hcall, -⟩ := sysWrite_table fs u q.2 fd buf nbytes
    rw [hu, hcall]
    exact Option.some_ne_none _
  · intro ev q' fd hst ⟨ret, hev⟩ i hi
    obtain ⟨u', hspec, hu'⟩ := hsim.step q ev q' u hu hst
    rw [hu, hu']
    rcases hev with rfl | ⟨buf, nbytes, rfl⟩
    · exact table_eq_of_reads_or_closes (Or.inr hspec) hi
    · exact table_eq_of_reads_or_closes (Or.inl hspec) hi

/-! ## A sample run -/

/-- A process with the string `"."` at its entry point. -/
def sampleWorld : World where
  mem := fun a => if a = execAddr then chr '.' else 0
  dir := ⟨fun _ => 0, 0⟩
  rtc := ⟨0, 0, false, ⟨0, 0, 0, 0⟩⟩
  con := ⟨fun _ => 0, fun _ => 0, fun _ _ => 0, fun _ => 0, fun _ => 0, 0, []⟩

/-- The start of a run of the sample process. -/
theorem reach_sampleWorld :
    (fdLTS (fsInit sampleImage sampleBase) sampleImage 0).Reach LTS.always
      (Fds.table (fsInit sampleImage sampleBase) (fun _ => none), sampleWorld) := by
  apply LTS.Reach.init
  exact ⟨0, ⟨fun _ => Fd.closed, none, 0, 0, 0, 0, 0, 0, 0, 0, 0, .retHere, 0, 0, fun _ => 0⟩,
    (initializePcb_table _ _ _ _).symm⟩

/-- The directory opened first is at descriptor 2. -/
theorem fileDesc_refines_sample :
    ∃ q, (fdLTS (fsInit sampleImage sampleBase) sampleImage 0).Reach LTS.always q ∧
      q.1 2 = ⟨some .dirFops, 0, 0, 1⟩ ∧ q.1 0 = Fd.terminal := by
  have hk : lookup (fsInit sampleImage sampleBase) sampleImage (sampleWorld.mem.view execAddr)
      = some .dir := by
    decide
  have hfree : findFd (Fds.table (fsInit sampleImage sampleBase) fun _ => none) = some 2 := by
    decide
  obtain ⟨w, hopen⟩ := sysOpen_of_lookup sampleImage_goodDir (w := sampleWorld) (by decide) hk
    (Fds.table (fsInit sampleImage sampleBase) fun _ => none)
  rw [hfree] at hopen
  have hreach := LTS.Reach.step (a := FdEvent.open execAddr (sampleWorld.mem.view execAddr) 2)
    reach_sampleWorld trivial ⟨by decide, rfl, hopen⟩
  exact ⟨_, hreach, rfl, ((fileDesc_refines sampleImage_goodDir 0).2 _ hreach).1⟩

end HieUnix
