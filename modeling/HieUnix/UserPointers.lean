import HieUnix.Ownership
import HieUnix.UserCommand

/-!
# Checked user pointers

`access_ok` checks one address, and the window it checks is `USER_PROG_ADDR` up to the end of the
video page. A call is validated when every address it accesses or is asked to access is in the
window, or it fails without any access. The calls are validated exactly as far as `Fits` says: the
check of the first address is not enough at the end of the window, and two calls do without it.
-/

namespace HieUnix

/-! ## The window -/

/-- `access_ok` lets the address through. -/
def InWindow (a : Word) : Prop := accessOk a = 0

instance (a : Word) : Decidable (InWindow a) := inferInstanceAs (Decidable (_ = _))

variable {mem : Memory} {a buf p : Word} {n : ℕ}

/-- The window ends at `VIDEO_ASSIGNED_MEM_ADDR + PAGE_SIZE_4KB`. -/
theorem inWindow_iff : InWindow a ↔ 0x8000000 ≤ a.toNat ∧ a.toNat < 0x8401000 := by
  unfold InWindow accessOk
  split
  · rename_i h
    rw [h]
    decide
  · split
    · rename_i h
      refine iff_of_false (by decide) fun hin => ?_
      rcases h with h | h <;> bv_omega
    · rename_i h
      refine iff_of_true rfl ?_
      obtain ⟨h1, h2⟩ := not_or.mp h
      bv_omega

theorem inWindow_of_accessOk_ne (h : accessOk a ≠ error) : InWindow a := by
  unfold InWindow
  unfold accessOk at h ⊢
  split
  · rename_i h0
    exact absurd (if_pos h0) h
  · rename_i h0
    rw [if_neg h0] at h
    split
    · rename_i h1
      exact absurd (if_pos h1) h
    · rfl

/-- The `n` bytes from `buf` on end within the window. -/
def SpanFits (buf : Word) (n : ℕ) : Prop := buf.toNat + n ≤ 0x8401000

/-- The string at `p` ends within the window. -/
def StringFits (mem : Memory) (p : Word) : Prop :=
  InWindow p ∧ ∃ n, SpanFits p (n + 1) ∧ mem.view p n = 0

/-- A span that starts in the window is in it when it ends in it. -/
theorem forall_inSpan_iff (hbuf : InWindow buf) :
    (∀ a, InSpan a buf n → InWindow a) ↔ SpanFits buf n := by
  obtain ⟨hlo, hhi⟩ := inWindow_iff.mp hbuf
  unfold SpanFits
  constructor
  · intro h
    by_contra hlt
    -- the first address past the window is in the span
    have hend := h (buf + BitVec.ofNat 32 (0x8401000 - buf.toNat)) (inSpan_add_ofNat (by omega))
    rw [inWindow_iff] at hend
    bv_omega
  · intro h a ha
    unfold InSpan at ha
    rw [inWindow_iff]
    bv_omega

theorem forall_inString_iff : (∀ a, InString mem p a → InWindow a) ↔ StringFits mem p := by
  constructor
  · intro h
    have hfirst : InWindow p := by
      apply h
      exact ⟨0, by decide, (BitVec.add_zero p).symm, fun l hl => absurd hl (Nat.not_lt_zero l)⟩
    refine ⟨hfirst, ?_⟩
    obtain ⟨hlo, hhi⟩ := inWindow_iff.mp hfirst
    by_contra hnone
    -- without a zero byte in the window the string goes on past it
    have hnz : ∀ l < 0x8401000 - p.toNat, mem.view p l ≠ 0 := by
      intro l hl hz
      refine hnone ⟨l, ?_, hz⟩
      unfold SpanFits
      omega
    have hend := h (p + BitVec.ofNat 32 (0x8401000 - p.toNat))
      ⟨0x8401000 - p.toNat, by omega, rfl, hnz⟩
    rw [inWindow_iff] at hend
    bv_omega
  · rintro ⟨hfirst, n, hfits, hz⟩ a ⟨j, hj, rfl, hnz⟩
    have hle : j ≤ n := by
      by_contra hlt
      exact hnz n (Nat.not_le.mp hlt) hz
    obtain ⟨hlo, hhi⟩ := inWindow_iff.mp hfirst
    unfold SpanFits at hfits
    rw [inWindow_iff]
    bv_omega

/-! ## The calls -/

/-- The state a system call finds: the kernel with the frame of the call, and the memory of the
caller with the globals of the file system and the devices. -/
structure Caller where
  m : Machine
  k : Kernel
  fr : Frame
  w : World

/-- `get_pcb()`. -/
def Caller.pcb (c : Caller) : Pcb := c.k.pcb c.fr.pcb

/-- A system call with pointers. -/
inductive UserCall
  | read (fd buf nbytes : Word)
  | write (fd buf nbytes : Word)
  | open (filename : Word)
  | getargs (buf nbytes : Word)
  | vidmap (screenStart : Word)
  | execute (command : Word)
deriving DecidableEq, Repr

/-- The value an operation returns, when it returns. -/
def Control.value : Control → Option Word
  | .ret v => some v
  | .enter _ => none
  | .jump _ _ _ => none

/-- The value a call returns, with its accesses. `none` when it does not return a value. -/
def UserCall.run (c : Caller) : UserCall → Traced (Option Word)
  | .read fd buf nbytes => do
    let r ← sysReadT c.m.fs c.m.img c.pcb.terminalNumber c.pcb.fileDesc c.w fd buf nbytes
    pure (r.map Prod.fst)
  | .write fd buf nbytes => do
    let r ← sysWriteT c.pcb.fileDesc c.w fd buf nbytes
    pure (r.map Prod.fst)
  | .open filename => do
    let r ← sysOpenT c.m.fs c.m.img c.pcb.fileDesc c.w filename
    pure (r.map Prod.fst)
  | .getargs buf nbytes => do
    let r ← sysGetargs c.pcb c.w.mem buf nbytes
    pure (some r.1)
  | .vidmap screenStart => do
    let r ← sysVidmap c.m c.k c.w.mem screenStart
    pure (some r.1)
  | .execute command => do
    let r ← executeT c.m c.k c.fr c.w.mem command
    pure r.1.value

/-- How many bytes `getargs` writes: `nbytes` is signed where it clears the buffer and unsigned
where it copies. -/
def argsSize (p : Pcb) (nbytes : Word) : ℕ :=
  max nbytes.toInt.toNat (min p.argumentBufferSize.toNat nbytes.toNat)

/-- The addresses a call is asked to access. -/
def UserCall.Names (c : Caller) : UserCall → Word → Prop
  | .read _ buf nbytes, a => InSpan a buf nbytes.toNat
  | .write _ buf nbytes, a => InSpan a buf nbytes.toNat
  | .open filename, a => InString c.w.mem filename a
  | .getargs buf nbytes, a => InSpan a buf (argsSize c.pcb nbytes)
  | .vidmap screenStart, a => InSpan a screenStart 4
  | .execute command, a => InString c.w.mem command a

/-- Every address named or accessed is in the window, or the call returns -1 without an access. -/
def Validated (names : Word → Prop) (x : Traced (Option Word)) : Prop :=
  (∀ a, names a ∨ x.Touches a → InWindow a) ∨ (x.val = some error ∧ ∀ a, ¬ x.Touches a)

/-! ## The exact condition -/

/-- What `file_read` cannot read: no file, or no index node in the image. -/
def Unreadable (fs : Fs) (f : Fd) : Prop :=
  f.flags ≠ 1 ∨ f.inodeP = 0 ∨ fs.fsBaseAdr = 0 ∨
    fs.numIndexNodes ≤ (f.inodeP - fs.fsBaseAdr) / blockSize - 1

/-- What an open descriptor must meet for a `read`. -/
def ReadFits (c : Caller) (f : Fd) (buf nbytes : Word) : Prop :=
  match f.fopsP with
  | some .fileFops => Unreadable c.m.fs f ∨ SpanFits buf nbytes.toNat
  | some .terminalFops => SpanFits buf nbytes.toNat ∧ SpanFits buf (lineSize c.w.con nbytes)
  | _ => SpanFits buf nbytes.toNat

/-- What an open descriptor must meet for a `write`. -/
def WriteFits (f : Fd) (buf nbytes : Word) : Prop :=
  match f.fopsP with
  | some .fileFops => True
  | some .dirFops => True
  | _ => SpanFits buf nbytes.toNat

/-- When a call is validated: it is turned away, or what it is asked to access ends in the
window. -/
def UserCall.Fits (c : Caller) : UserCall → Prop
  | .read fd buf nbytes =>
    ∀ i, checkFd 0 fd = some i → i ≠ 1 → (c.pcb.fileDesc i).flags ≠ 0 → InWindow buf →
      ReadFits c (c.pcb.fileDesc i) buf nbytes
  | .write fd buf nbytes =>
    ∀ i, checkFd 0 fd = some i → i ≠ 0 → (c.pcb.fileDesc i).flags ≠ 0 → InWindow buf →
      WriteFits (c.pcb.fileDesc i) buf nbytes
  | .open filename =>
    filename = 0 ∨ c.m.fs.fsBaseAdr = 0 ∨ c.m.fs.numDentries = 0 ∨ StringFits c.w.mem filename
  | .getargs buf nbytes =>
    InWindow buf → ¬ nbytes < c.pcb.argumentBufferSize → ¬ c.pcb.argumentBufferSize ≤ 1 →
      SpanFits buf (argsSize c.pcb nbytes)
  | .vidmap screenStart => InWindow screenStart → SpanFits screenStart 4
  | .execute command => command = 0 ∨ StringFits c.w.mem command

variable {names : Word → Prop} {x : Traced (Option Word)} {c : Caller} {nbytes fd : Word}

/-- A call that fails without an access is validated. -/
theorem validated_of_error (hret : x.val = some error) (hno : ∀ a, ¬ x.Touches a) :
    Validated names x :=
  Or.inr ⟨hret, hno⟩

/-- A call that goes ahead is validated when what it names is in the window, as long as it
accesses nothing else. -/
theorem validated_iff_of_touches (hsub : ∀ a, x.Touches a → names a)
    (hgo : (∃ a, x.Touches a) ∨ x.val ≠ some error ∨ ∀ a, ¬ names a) :
    Validated names x ↔ ∀ a, names a → InWindow a := by
  constructor
  · intro h a ha
    rcases h with h | ⟨hret, hno⟩
    · exact h a (Or.inl ha)
    · rcases hgo with ⟨b, hb⟩ | hne | hempty
      · exact absurd hb (hno b)
      · exact absurd hret hne
      · exact absurd ha (hempty a)
  · intro h
    exact Or.inl fun a ha => h a (ha.elim id (hsub a))

/-- What a call returns does not depend on how much of its result is kept. -/
theorem touches_map {α : Type} (y : Traced α) (f : α → Option Word) :
    (y >>= fun r => pure (f r)).Touches a ↔ y.Touches a := by
  rw [Traced.touches_bind]
  exact or_iff_left (Traced.not_touches_pure _)

/-! ## `read` and `write` -/

theorem accessOk_ne_error (h : InWindow buf) : accessOk buf ≠ error := by
  rw [show accessOk buf = 0 from h]
  decide

/-- What the checks of `read` and `write` turn away, they turn away with -1. -/
theorem sysReadT_of_refused
    (h : ∀ i, checkFd 0 fd = some i → i ≠ 1 → (c.pcb.fileDesc i).flags ≠ 0 → ¬ InWindow buf) :
    sysReadT c.m.fs c.m.img c.pcb.terminalNumber c.pcb.fileDesc c.w fd buf nbytes
      = pure (some (error, c.pcb.fileDesc, c.w)) := by
  unfold sysReadT
  cases hfd : checkFd 0 fd with
  | none => rfl
  | some i =>
    dsimp only
    by_cases hbuf : accessOk buf = error
    · rw [if_pos hbuf]
    · rw [if_neg hbuf, if_pos]
      by_contra hopen
      obtain ⟨hone, hflags⟩ := not_or.mp hopen
      exact h i hfd hone hflags (inWindow_of_accessOk_ne hbuf)

theorem sysWriteT_of_refused
    (h : ∀ i, checkFd 0 fd = some i → i ≠ 0 → (c.pcb.fileDesc i).flags ≠ 0 → ¬ InWindow buf) :
    sysWriteT c.pcb.fileDesc c.w fd buf nbytes = pure (some (error, c.pcb.fileDesc, c.w)) := by
  unfold sysWriteT
  cases hfd : checkFd 0 fd with
  | none => rfl
  | some i =>
    dsimp only
    by_cases hbuf : accessOk buf = error
    · rw [if_pos hbuf]
    · rw [if_neg hbuf, if_pos]
      by_contra hopen
      obtain ⟨hzero, hflags⟩ := not_or.mp hopen
      exact h i hfd hzero hflags (inWindow_of_accessOk_ne hbuf)

/-- A `read` that the checks let through is the `read` of the operation table. -/
theorem run_read (nbytes : Word) {i : Fin maxFileNum} (hfd : checkFd 0 fd = some i) (hone : i ≠ 1)
    (hflags : (c.pcb.fileDesc i).flags ≠ 0) (hbuf : InWindow buf) {ops : FopsTable}
    (hops : (c.pcb.fileDesc i).fopsP = some ops) :
    let x := ops.readT c.m.fs c.m.img c.pcb.terminalNumber (c.pcb.fileDesc i) c.w buf nbytes
    ((UserCall.read fd buf nbytes).run c).val = some x.val.1 ∧
      ∀ a, ((UserCall.read fd buf nbytes).run c).Touches a ↔ x.Touches a := by
  have hopen : ¬ (i = 1 ∨ (c.pcb.fileDesc i).flags = 0) := not_or.mpr ⟨hone, hflags⟩
  rw [UserCall.run, sysReadT, hfd]
  dsimp only
  rw [if_neg (accessOk_ne_error hbuf), if_neg hopen, hops]
  refine ⟨rfl, fun a => ?_⟩
  rw [touches_map, Traced.touches_bind]
  exact or_iff_left (Traced.not_touches_pure _)

/-- A `write` that the checks let through is the `write` of the operation table. -/
theorem run_write (nbytes : Word) {i : Fin maxFileNum} (hfd : checkFd 0 fd = some i) (hzero : i ≠ 0)
    (hflags : (c.pcb.fileDesc i).flags ≠ 0) (hbuf : InWindow buf) {ops : FopsTable}
    (hops : (c.pcb.fileDesc i).fopsP = some ops) :
    let x := ops.writeT c.w buf nbytes
    ((UserCall.write fd buf nbytes).run c).val = some x.val.1 ∧
      ∀ a, ((UserCall.write fd buf nbytes).run c).Touches a ↔ x.Touches a := by
  have hopen : ¬ (i = 0 ∨ (c.pcb.fileDesc i).flags = 0) := not_or.mpr ⟨hzero, hflags⟩
  rw [UserCall.run, sysWriteT, hfd]
  dsimp only
  rw [if_neg (accessOk_ne_error hbuf), if_neg hopen, hops]
  refine ⟨rfl, fun a => ?_⟩
  rw [touches_map, Traced.touches_bind]
  exact or_iff_left (Traced.not_touches_pure _)

/-- A call through a null table returns no value. -/
theorem run_read_of_null {i : Fin maxFileNum} (hfd : checkFd 0 fd = some i) (hone : i ≠ 1)
    (hflags : (c.pcb.fileDesc i).flags ≠ 0) (hbuf : InWindow buf)
    (hops : (c.pcb.fileDesc i).fopsP = none) :
    (UserCall.read fd buf nbytes).run c = pure none := by
  have hopen : ¬ (i = 1 ∨ (c.pcb.fileDesc i).flags = 0) := not_or.mpr ⟨hone, hflags⟩
  rw [UserCall.run, sysReadT, hfd]
  dsimp only
  rw [if_neg (accessOk_ne_error hbuf), if_neg hopen, hops]
  rfl

theorem run_write_of_null {i : Fin maxFileNum} (hfd : checkFd 0 fd = some i) (hzero : i ≠ 0)
    (hflags : (c.pcb.fileDesc i).flags ≠ 0) (hbuf : InWindow buf)
    (hops : (c.pcb.fileDesc i).fopsP = none) :
    (UserCall.write fd buf nbytes).run c = pure none := by
  have hopen : ¬ (i = 0 ∨ (c.pcb.fileDesc i).flags = 0) := not_or.mpr ⟨hzero, hflags⟩
  rw [UserCall.run, sysWriteT, hfd]
  dsimp only
  rw [if_neg (accessOk_ne_error hbuf), if_neg hopen, hops]
  rfl

/-- `file_read`: it fails at once when there is nothing to read, and otherwise accesses the whole
buffer. -/
theorem touches_fileReadT (fs : Fs) (img mem : Memory) (f : Fd) (nbytes : Word) (hbuf : buf ≠ 0) :
    (Unreadable fs f ∧ (fileReadT fs img f mem buf nbytes).val.1 = error ∧
        ∀ a, ¬ (fileReadT fs img f mem buf nbytes).Touches a) ∨
      (¬ Unreadable fs f ∧
        ∀ a, (fileReadT fs img f mem buf nbytes).Touches a ↔ InSpan a buf nbytes.toNat) := by
  unfold fileReadT Unreadable
  by_cases hclosed : f.flags ≠ 1 ∨ f.inodeP = 0
  · rw [if_pos hclosed]
    refine Or.inl ⟨?_, rfl, fun a => Traced.not_touches_pure _⟩
    exact hclosed.elim Or.inl fun h => Or.inr (Or.inl h)
  · rw [if_neg hclosed]
    obtain ⟨hflags, hinode⟩ := not_or.mp hclosed
    by_cases hbase : fs.fsBaseAdr = 0
    -- `read_data` returns before it touches the buffer
    · refine Or.inl ⟨Or.inr (Or.inr (Or.inl hbase)), ?_, fun a => ?_⟩
      · rw [Traced.val_bind, readDataT, if_pos hbase]
        rfl
      · rw [Traced.touches_bind, readDataT, if_pos hbase]
        exact not_or.mpr ⟨Traced.not_touches_pure _, Traced.not_touches_pure _⟩
    by_cases hnode : fs.numIndexNodes ≤ (f.inodeP - fs.fsBaseAdr) / blockSize - 1
    · refine Or.inl ⟨Or.inr (Or.inr (Or.inr hnode)), ?_, fun a => ?_⟩
      · rw [Traced.val_bind, readDataT, if_neg hbase, if_pos hnode]
        rfl
      · rw [Traced.touches_bind, readDataT, if_neg hbase, if_pos hnode]
        exact not_or.mpr ⟨Traced.not_touches_pure _, Traced.not_touches_pure _⟩
    · refine Or.inr ⟨?_, fun a => ?_⟩
      · rintro (h | h | h | h)
        · exact hflags h
        · exact hinode h
        · exact hbase h
        · exact hnode h
      · rw [Traced.touches_bind, touches_readDataT hbase hnode hbuf]
        exact or_iff_left (Traced.not_touches_pure _)

/-- `dir_read` returns 0 or stores in the buffer, unless nothing is asked for. -/
theorem dirReadT_goes_ahead (f : Fd) (dir : DirState) (mem : Memory) (buf nbytes : Word) :
    (∃ a, (dirReadT f dir mem buf nbytes).Touches a) ∨
      (dirReadT f dir mem buf nbytes).val.1 = 0 ∨ nbytes.toNat = 0 := by
  unfold dirReadT
  cases hn : nbytes.toNat with
  | zero => exact Or.inr (Or.inr rfl)
  | succ n =>
    by_cases heof : dir.dirLength ≤ f.filePos
    · refine Or.inr (Or.inl ?_)
      rw [Traced.val_bind, dirReadLoopT, decide_eq_true heof, if_pos rfl]
      rfl
    · refine Or.inl ⟨buf + BitVec.ofNat 32 0, ?_⟩
      rw [Traced.touches_bind, dirReadLoopT, decide_eq_false heof, if_neg Bool.false_ne_true,
        Traced.touches_bind, Traced.touches_store]
      exact Or.inl (Or.inl rfl)

/-- A line and its newline take between 1 and 129 bytes. -/
theorem lineSize_bounds (con : Console) (nbytes : Word) :
    1 ≤ lineSize con nbytes ∧ lineSize con nbytes ≤ 129 := by
  unfold lineSize
  split
  · decide
  · have hlen := strlen_le con.enterBuffer (readCount nbytes)
    have hcount : readCount nbytes ≤ 128 := by
      unfold readCount
      split
      · exact le_rfl
      · rename_i hle
        change ¬ 128#32 < nbytes at hle
        bv_omega
    omega

/-- `terminal_read` is validated when the request and the line both end in the window. -/
theorem validated_terminalRead (con : Console) (term : Term) (mem : Memory) (hbuf : InWindow buf)
    (htouch : ∀ a, x.Touches a ↔ (terminalReadT con term mem buf nbytes).Touches a) :
    Validated (fun a => InSpan a buf nbytes.toNat) x ↔
      SpanFits buf nbytes.toNat ∧ SpanFits buf (lineSize con nbytes) := by
  obtain ⟨hle, hlast⟩ := touches_terminalReadT con term mem nbytes
    (ne_zero_of_accessOk hbuf)
  constructor
  · intro h
    rcases h with h | ⟨-, hno⟩
    · refine ⟨(forall_inSpan_iff hbuf).mp fun a ha => h a (Or.inl ha), ?_⟩
      -- the newline is the last byte stored
      have hin := inWindow_iff.mp (h _ (Or.inr ((htouch _).mpr hlast)))
      have hbuf' := inWindow_iff.mp hbuf
      have hbounds := lineSize_bounds con nbytes
      unfold SpanFits
      bv_omega
    · exact absurd ((htouch _).mpr hlast) (hno _)
  · rintro ⟨hreq, hline⟩
    refine Or.inl fun a ha => ?_
    rcases ha with ha | ha
    · exact (forall_inSpan_iff hbuf).mpr hreq a ha
    · exact (forall_inSpan_iff hbuf).mpr hline a (hle a ((htouch a).mp ha))

/-- `file_read` is validated when it fails, or the request ends in the window. -/
theorem validated_fileRead (fs : Fs) (img mem : Memory) (f : Fd) (hbuf : InWindow buf)
    (hval : x.val = some (fileReadT fs img f mem buf nbytes).val.1)
    (htouch : ∀ a, x.Touches a ↔ (fileReadT fs img f mem buf nbytes).Touches a) :
    Validated (fun a => InSpan a buf nbytes.toNat) x ↔
      Unreadable fs f ∨ SpanFits buf nbytes.toNat := by
  rcases touches_fileReadT fs img mem f nbytes (ne_zero_of_accessOk hbuf) with
    ⟨hbad, hret, hno⟩ | ⟨hgood, hall⟩
  · refine iff_of_true (validated_of_error ?_ fun a ha => hno a ((htouch a).mp ha)) (Or.inl hbad)
    rw [hval]
    exact congrArg some hret
  · rw [validated_iff_of_touches, forall_inSpan_iff hbuf]
    · exact ⟨Or.inr, fun h => h.resolve_left hgood⟩
    · exact fun a ha => (hall a).mp ((htouch a).mp ha)
    · -- an empty request names nothing
      by_cases hne : ∃ a, InSpan a buf nbytes.toNat
      · obtain ⟨a, ha⟩ := hne
        exact Or.inl ⟨a, (htouch a).mpr ((hall a).mpr ha)⟩
      · exact Or.inr (Or.inr fun a ha => hne ⟨a, ha⟩)

/-- `dir_read` is validated when the request ends in the window. -/
theorem validated_dirRead (f : Fd) (dir : DirState) (mem : Memory) (hbuf : InWindow buf)
    (hval : x.val = some (dirReadT f dir mem buf nbytes).val.1)
    (htouch : ∀ a, x.Touches a ↔ (dirReadT f dir mem buf nbytes).Touches a) :
    Validated (fun a => InSpan a buf nbytes.toNat) x ↔ SpanFits buf nbytes.toNat := by
  rw [validated_iff_of_touches]
  · exact forall_inSpan_iff hbuf
  · exact fun a ha => touches_dirReadT ((htouch a).mp ha)
  · rcases dirReadT_goes_ahead f dir mem buf nbytes with ⟨a, ha⟩ | hret | hempty
    · exact Or.inl ⟨a, (htouch a).mpr ha⟩
    · -- at the end of the listing it returns 0
      refine Or.inr (Or.inl ?_)
      rw [hval, hret]
      decide
    · refine Or.inr (Or.inr fun a ha => ?_)
      rw [hempty] at ha
      exact absurd ha (Nat.not_lt_zero _)

/-- A `read` the checks let through is validated exactly when its descriptor's condition holds. -/
theorem validated_read_of_open {i : Fin maxFileNum} (hfd : checkFd 0 fd = some i) (hone : i ≠ 1)
    (hflags : (c.pcb.fileDesc i).flags ≠ 0) (hbuf : InWindow buf) :
    Validated (fun a => InSpan a buf nbytes.toNat) ((UserCall.read fd buf nbytes).run c) ↔
      ReadFits c (c.pcb.fileDesc i) buf nbytes := by
  unfold ReadFits
  cases hops : (c.pcb.fileDesc i).fopsP with
  | none =>
    rw [run_read_of_null hfd hone hflags hbuf hops, validated_iff_of_touches]
    · exact forall_inSpan_iff hbuf
    · exact fun a ha => absurd ha (Traced.not_touches_pure _)
    · exact Or.inr (Or.inl (by decide))
  | some ops =>
    obtain ⟨hval, htouch⟩ := run_read nbytes hfd hone hflags hbuf hops
    cases ops with
    | terminalFops =>
      refine validated_terminalRead c.w.con c.pcb.terminalNumber c.w.mem hbuf fun a => ?_
      rw [htouch, FopsTable.readT, Traced.touches_bind]
      exact or_iff_left (Traced.not_touches_pure _)
    | rtcFops =>
      -- `rtc_read` touches nothing and returns 0
      rw [validated_iff_of_touches]
      · exact forall_inSpan_iff hbuf
      · exact fun a ha => absurd ((htouch a).mp ha) (Traced.not_touches_pure _)
      · refine Or.inr (Or.inl ?_)
        rw [hval]
        show some (0 : Word) ≠ some error
        decide
    | fileFops =>
      refine validated_fileRead c.m.fs c.m.img c.w.mem (c.pcb.fileDesc i) hbuf hval fun a => ?_
      rw [htouch, FopsTable.readT, Traced.touches_bind]
      exact or_iff_left (Traced.not_touches_pure _)
    | dirFops =>
      refine validated_dirRead (c.pcb.fileDesc i) c.w.dir c.w.mem hbuf hval fun a => ?_
      rw [htouch, FopsTable.readT, Traced.touches_bind]
      exact or_iff_left (Traced.not_touches_pure _)

/-- A `write` the checks let through is validated exactly when its descriptor's condition holds. -/
theorem validated_write_of_open {i : Fin maxFileNum} (hfd : checkFd 0 fd = some i) (hzero : i ≠ 0)
    (hflags : (c.pcb.fileDesc i).flags ≠ 0) (hbuf : InWindow buf) :
    Validated (fun a => InSpan a buf nbytes.toNat) ((UserCall.write fd buf nbytes).run c) ↔
      WriteFits (c.pcb.fileDesc i) buf nbytes := by
  have hnz := ne_zero_of_accessOk hbuf
  unfold WriteFits
  cases hops : (c.pcb.fileDesc i).fopsP with
  | none =>
    rw [run_write_of_null hfd hzero hflags hbuf hops, validated_iff_of_touches]
    · exact forall_inSpan_iff hbuf
    · exact fun a ha => absurd ha (Traced.not_touches_pure _)
    · exact Or.inr (Or.inl (by decide))
  | some ops =>
    obtain ⟨hval, htouch⟩ := run_write nbytes hfd hzero hflags hbuf hops
    cases ops with
    | terminalFops =>
      have hterm : ∀ a, ((UserCall.write fd buf nbytes).run c).Touches a ↔
          InSpan a buf nbytes.toNat := by
        intro a
        rw [htouch, FopsTable.writeT, Traced.touches_bind, terminalWriteT, if_neg hnz,
          Traced.touches_bind, Traced.touches_bytes]
        exact (or_iff_left (Traced.not_touches_pure _)).trans
          (or_iff_left (Traced.not_touches_pure _))
      rw [validated_iff_of_touches]
      · exact forall_inSpan_iff hbuf
      · exact fun a => (hterm a).mp
      · by_cases hne : ∃ a, InSpan a buf nbytes.toNat
        · obtain ⟨a, ha⟩ := hne
          exact Or.inl ⟨a, (hterm a).mpr ha⟩
        · exact Or.inr (Or.inr fun a ha => hne ⟨a, ha⟩)
    | rtcFops =>
      have hrtc : ∀ a, ((UserCall.write fd buf nbytes).run c).Touches a ↔ a = buf := by
        intro a
        rw [htouch, FopsTable.writeT, Traced.touches_bind, rtcWriteT, if_neg hnz,
          Traced.touches_bind, Traced.touches_load]
        exact (or_iff_left (Traced.not_touches_pure _)).trans
          (or_iff_left (Traced.not_touches_pure _))
      -- only the first byte is read, whatever `nbytes` is
      constructor
      · intro h
        rcases h with h | ⟨-, hno⟩
        · exact (forall_inSpan_iff hbuf).mp fun a ha => h a (Or.inl ha)
        · exact absurd ((hrtc buf).mpr rfl) (hno buf)
      · intro h
        refine Or.inl fun a ha => ?_
        rcases ha with ha | ha
        · exact (forall_inSpan_iff hbuf).mpr h a ha
        · rw [(hrtc a).mp ha]
          exact hbuf
    | fileFops =>
      -- the file system is read-only
      refine iff_of_true (validated_of_error hval fun a ha => ?_) trivial
      exact absurd ((htouch a).mp ha) (Traced.not_touches_pure _)
    | dirFops =>
      refine iff_of_true (validated_of_error hval fun a ha => ?_) trivial
      exact absurd ((htouch a).mp ha) (Traced.not_touches_pure _)

/-! ## The other calls -/

/-- `open` is validated when it reads nothing, or the name ends in the window. -/
theorem validated_open (c : Caller) (filename : Word) :
    Validated (InString c.w.mem filename) ((UserCall.open filename).run c) ↔
      (UserCall.open filename).Fits c := by
  rw [UserCall.run, UserCall.Fits]
  by_cases hnull : filename = 0
  · refine iff_of_true (validated_of_error ?_ fun a => ?_) (Or.inl hnull)
    · rw [Traced.val_bind, sysOpenT, if_pos hnull]
      rfl
    · rw [touches_map, sysOpenT, if_pos hnull]
      exact Traced.not_touches_pure _
  by_cases hempty : c.m.fs.fsBaseAdr = 0 ∨ c.m.fs.numDentries = 0
  · refine iff_of_true (validated_of_error ?_ fun a => ?_) (Or.inr (hempty.imp id Or.inl))
    · rw [Traced.val_bind, sysOpenT, if_neg hnull, readDentryByNameT_of_empty hempty]
      rfl
    · rw [touches_map, sysOpenT, if_neg hnull, readDentryByNameT_of_empty hempty,
        Traced.touches_bind]
      exact not_or.mpr ⟨Traced.not_touches_pure _, Traced.not_touches_pure _⟩
  · obtain ⟨hbase, hnum⟩ := not_or.mp hempty
    rw [validated_iff_of_touches, forall_inString_iff]
    · constructor
      · exact fun h => Or.inr (Or.inr (Or.inr h))
      · rintro (h | h | h | h)
        · exact absurd h hnull
        · exact absurd h hbase
        · exact absurd h hnum
        · exact h
    · intro a ha
      rw [touches_map] at ha
      exact touches_sysOpenT ha
    · -- the first comparison reads the first byte before the address is checked
      refine Or.inl ⟨filename, ?_⟩
      rw [touches_map, sysOpenT, if_neg hnull, Traced.touches_bind]
      exact Or.inl (touches_readDentryByNameT_self hbase hnum _)

/-- `getargs` is validated when it is turned away, or both its writes end in the window. -/
theorem validated_getargs (c : Caller) (buf nbytes : Word) :
    Validated (fun a => InSpan a buf (argsSize c.pcb nbytes))
        ((UserCall.getargs buf nbytes).run c) ↔ (UserCall.getargs buf nbytes).Fits c := by
  rw [UserCall.run, UserCall.Fits]
  -- the checks come in two steps, and the second is that of the address
  by_cases hargs : buf = 0 ∨ nbytes < c.pcb.argumentBufferSize ∨ c.pcb.argumentBufferSize ≤ 1
  · refine iff_of_true (validated_of_error ?_ fun a => ?_) ?_
    · rw [Traced.val_bind, sysGetargs, if_pos hargs]
      rfl
    · rw [Traced.touches_bind, sysGetargs, if_pos hargs]
      exact not_or.mpr ⟨Traced.not_touches_pure _, Traced.not_touches_pure _⟩
    · intro hbuf hlt hle
      exact absurd hargs (not_or.mpr ⟨ne_zero_of_accessOk hbuf, not_or.mpr ⟨hlt, hle⟩⟩)
  by_cases hok : accessOk buf = error
  · refine iff_of_true (validated_of_error ?_ fun a => ?_) ?_
    · rw [Traced.val_bind, sysGetargs, if_neg hargs, if_pos hok]
      rfl
    · rw [Traced.touches_bind, sysGetargs, if_neg hargs, if_pos hok]
      exact not_or.mpr ⟨Traced.not_touches_pure _, Traced.not_touches_pure _⟩
    · exact fun hbuf => absurd hok (accessOk_ne_error hbuf)
  · have hbuf := inWindow_of_accessOk_ne hok
    obtain ⟨-, hargs'⟩ := not_or.mp hargs
    obtain ⟨hlt, hle⟩ := not_or.mp hargs'
    rw [validated_iff_of_touches]
    · rw [forall_inSpan_iff hbuf]
      exact ⟨fun h _ _ _ => h, fun h => h hbuf hlt hle⟩
    · intro a ha
      rw [Traced.touches_bind, sysGetargs, if_neg hargs, if_neg hok, Traced.touches_bind,
        Traced.touches_fill, Traced.touches_bind, Traced.touches_patch] at ha
      have hmin : (if c.pcb.argumentBufferSize < nbytes then c.pcb.argumentBufferSize
          else nbytes).toNat = min c.pcb.argumentBufferSize.toNat nbytes.toNat := by
        split <;> bv_omega
      unfold argsSize InSpan
      rcases ha with (ha | ha | ha) | ha
      · exact lt_of_lt_of_le ha (Nat.le_max_left _ _)
      · unfold InSpan at ha
        rw [hmin] at ha
        exact lt_of_lt_of_le ha (Nat.le_max_right _ _)
      · exact absurd ha (Traced.not_touches_pure _)
      · exact absurd ha (Traced.not_touches_pure _)
    · refine Or.inr (Or.inl ?_)
      rw [Traced.val_bind, sysGetargs, if_neg hargs, if_neg hok]
      show some (0 : Word) ≠ some error
      decide

/-- `vidmap` is validated when it is turned away, or the pointer it writes ends in the window. -/
theorem validated_vidmap (c : Caller) (screenStart : Word) :
    Validated (fun a => InSpan a screenStart 4) ((UserCall.vidmap screenStart).run c) ↔
      (UserCall.vidmap screenStart).Fits c := by
  rw [UserCall.run, UserCall.Fits]
  by_cases hok : accessOk screenStart = error
  · have hrefused : sysVidmap c.m c.k c.w.mem screenStart = pure (error, c.k, c.w.mem) := by
      unfold sysVidmap
      rw [if_pos hok, ite_self]
    refine iff_of_true (validated_of_error ?_ fun a => ?_) ?_
    · rw [hrefused]
      rfl
    · rw [hrefused, Traced.touches_bind]
      exact not_or.mpr ⟨Traced.not_touches_pure _, Traced.not_touches_pure _⟩
    · exact fun hbuf => absurd hok (accessOk_ne_error hbuf)
  · have hbuf := inWindow_of_accessOk_ne hok
    -- the four bytes are stored before the mapping is made, and the call cannot fail after
    rw [validated_iff_of_touches]
    · rw [forall_inSpan_iff hbuf]
      exact ⟨fun h _ => h, fun h => h hbuf⟩
    · intro a ha
      rw [Traced.touches_bind, sysVidmap, if_neg (ne_zero_of_accessOk hbuf), if_neg hok,
        Traced.touches_bind, Traced.touches_store32] at ha
      rcases ha with (ha | ha) | ha
      · exact ha
      · exact absurd ha (Traced.not_touches_pure _)
      · exact absurd ha (Traced.not_touches_pure _)
    · refine Or.inr (Or.inl ?_)
      rw [Traced.val_bind, sysVidmap, if_neg (ne_zero_of_accessOk hbuf), if_neg hok]
      show some (0 : Word) ≠ some error
      decide

/-- `execute` is validated when the command is null or ends in the window. -/
theorem validated_execute (c : Caller) (command : Word) :
    Validated (InString c.w.mem command) ((UserCall.execute command).run c) ↔
      (UserCall.execute command).Fits c := by
  rw [UserCall.run, UserCall.Fits]
  by_cases hnull : command = 0
  · refine iff_of_true (validated_of_error ?_ fun a => ?_) (Or.inl hnull)
    · rw [Traced.val_bind, executeT, if_pos hnull]
      rfl
    · rw [touches_map, executeT, if_pos hnull]
      exact Traced.not_touches_pure _
  · have hall : ∀ a, (executeT c.m c.k c.fr c.w.mem command >>= fun r =>
        (pure r.1.value : Traced (Option Word))).Touches a ↔ InString c.w.mem command a := by
      intro a
      rw [touches_map, touches_executeT c.m c.k c.fr hnull]
    rw [validated_iff_of_touches, forall_inString_iff]
    · exact ⟨Or.inr, fun h => h.resolve_left hnull⟩
    · exact fun a => (hall a).mp
    · refine Or.inl ⟨command, (hall command).mpr ?_⟩
      exact ⟨0, by decide, (BitVec.add_zero command).symm, fun l hl => absurd hl (Nat.not_lt_zero l)⟩

/-! ## The result -/

/-- A call is validated: every address it names or accesses is in the window, or it fails without
an access. -/
def UserCall.Valid (c : Caller) (call : UserCall) : Prop := Validated (call.Names c) (call.run c)

/-- **Which calls are validated.** `read`, `write`, `getargs` and `vidmap` are when what they are
asked to access ends in the window, or they are turned away; a `read` of a terminal also needs room
for the line, which its request does not bound. `open` and `execute` are only for strings in the
window: `open` reads the name before it checks the pointer, and `execute` never checks it. -/
theorem valid_iff_fits (c : Caller) (call : UserCall) : call.Valid c ↔ call.Fits c := by
  unfold UserCall.Valid
  cases call with
  | read fd buf nbytes =>
    by_cases h : ∀ i, checkFd 0 fd = some i → i ≠ 1 → (c.pcb.fileDesc i).flags ≠ 0 → ¬ InWindow buf
    -- a refused call touches nothing
    · refine iff_of_true ?_ fun i hfd hone hflags hbuf => absurd hbuf (h i hfd hone hflags)
      rw [UserCall.run, sysReadT_of_refused h]
      exact validated_of_error rfl fun a => by rw [touches_map]; exact Traced.not_touches_pure _
    · push Not at h
      obtain ⟨i, hfd, hone, hflags, hbuf⟩ := h
      refine (validated_read_of_open hfd hone hflags hbuf).trans ?_
      refine ⟨fun h j hj _ _ _ => ?_, fun h => h i hfd hone hflags hbuf⟩
      rw [hfd, Option.some.injEq] at hj
      rwa [← hj]
  | write fd buf nbytes =>
    by_cases h : ∀ i, checkFd 0 fd = some i → i ≠ 0 → (c.pcb.fileDesc i).flags ≠ 0 → ¬ InWindow buf
    · refine iff_of_true ?_ fun i hfd hzero hflags hbuf => absurd hbuf (h i hfd hzero hflags)
      rw [UserCall.run, sysWriteT_of_refused h]
      exact validated_of_error rfl fun a => by rw [touches_map]; exact Traced.not_touches_pure _
    · push Not at h
      obtain ⟨i, hfd, hzero, hflags, hbuf⟩ := h
      refine (validated_write_of_open hfd hzero hflags hbuf).trans ?_
      refine ⟨fun h j hj _ _ _ => ?_, fun h => h i hfd hzero hflags hbuf⟩
      rw [hfd, Option.some.injEq] at hj
      rwa [← hj]
  | «open» filename => exact validated_open c filename
  | getargs buf nbytes => exact validated_getargs c buf nbytes
  | vidmap screenStart => exact validated_vidmap c screenStart
  | execute command => exact validated_execute c command

/-- The first shell, about to make a system call. -/
def sampleCaller : Caller := ⟨sampleMachine, sampleBoot, Frame.top 0, sampleWorld⟩

/-- `vidmap` with a pointer two bytes before the end of the window writes past it, and `execute`
with a pointer into the kernel reads there. -/
theorem not_valid_sampleCaller :
    ¬ (UserCall.vidmap 0x8400FFE).Valid sampleCaller ∧
      ¬ (UserCall.execute 0x1000).Valid sampleCaller := by
  constructor
  · have hpast : InSpan 0x8401000 0x8400FFE 4 := by decide
    rintro (h | ⟨hret, -⟩)
    · exact absurd (h 0x8401000 (Or.inl hpast)) (by decide)
    · change some (0 : Word) = some error at hret
      exact absurd hret (by decide)
  · have htouch : ((UserCall.execute 0x1000).run sampleCaller).Touches 0x1000 := by
      rw [UserCall.run, touches_map, touches_executeT _ _ _ (by decide)]
      exact ⟨0, by decide, by decide, fun l hl => absurd hl (Nat.not_lt_zero l)⟩
    rintro (h | ⟨-, hno⟩)
    · exact absurd (h 0x1000 (Or.inr htouch)) (by decide)
    · exact hno _ htouch

end HieUnix
