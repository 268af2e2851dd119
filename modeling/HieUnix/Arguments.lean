import HieUnix.Lookup
import HieUnix.VideoPage

/-!
# The command line of a program

`execute` copies the beginning of its command, has `parse` find the name of the program in the
command and the arguments in the copy, and leaves the arguments in the control block for `getargs`.
Here `parse` is its four loops, over buffers of the size that they have in the code; they stay in
the buffers and find what the model of `execute` is given (`parseLoops_name`,
`parseLoops_arguments`). `commandLTS` records the command that each program was started with, and
in every run `getargs` hands out the arguments of that command (`getargs_of_reach`).
-/

namespace HieUnix

open Function

variable {m : Machine} {k k' : Kernel} {fr sub : Frame} {c i : Slot} {op : Op}

/-! ## `parse` as loops -/

/-- `while (command[i] == ' ') i++`. -/
def skipSpaces (command : ℕ → Byte) : ℕ → ℕ → ℕ
  | 0, i => i
  | fuel + 1, i => if command i = chr ' ' then skipSpaces command fuel (i + 1) else i

/-- The loop that copies the name to `cmd`, from `i` and `k` on. `none` when it leaves `cmd`. -/
def copyName (command : ℕ → Byte) : ℕ → ℕ → ℕ → (ℕ → Byte) → Option (ℕ × ℕ × (ℕ → Byte))
  | 0, i, k, cmd => some (i, k, cmd)
  | fuel + 1, i, k, cmd =>
    if command i ≠ chr ' ' ∧ command i ≠ 0 then
      if k < maxBufferSize + 1 then
        copyName command fuel (i + 1) (k + 1) (update cmd k (command i))
      else none
    else some (i, k, cmd)

/-- The loop that copies the arguments to `argument_buffer`, from `i` and `n` on. `none` when it
leaves the buffer. -/
def copyArguments (command : ℕ → Byte) : ℕ → ℕ → ℕ → (ℕ → Byte) → Option (ℕ × (ℕ → Byte))
  | 0, _, n, buffer => some (n, buffer)
  | fuel + 1, i, n, buffer =>
    if command i ≠ 0 then
      if n < maxBufferSize then
        copyArguments command fuel (i + 1) (n + 1) (update buffer n (command i))
      else none
    else some (n, buffer)

/-- The part of `parse` for a control block that is not null, from `i` on. -/
def parseArguments (size : ℕ) (command : ℕ → Byte) (i : ℕ) (newPcb : Pcb) : Option Pcb :=
  match copyArguments command size (skipSpaces command size i) 0 newPcb.argumentBuffer with
  | none => none
  | some (n, buffer) =>
    if n < maxBufferSize then
      some { newPcb with
        argumentBuffer := update buffer n 0
        argumentBufferSize := BitVec.ofNat 32 (n + 1) }
    else none

/-- `parse` of a command that ends within `size` bytes: `cmd` and the control block after it.
`none` when it writes outside them. -/
def parseLoops (size : ℕ) (command cmd : ℕ → Byte) (newPcb : Option Pcb) :
    Option ((ℕ → Byte) × Option Pcb) :=
  match copyName command size (skipSpaces command size 0) 0 cmd with
  | none => none
  | some (i, k, cmd) =>
    if k < maxBufferSize + 1 then
      match newPcb with
      | none => some (update cmd k 0, none)
      | some p => (parseArguments size command i p).map fun p => (update cmd k 0, some p)
    else none

/-! ## What the loops find -/

/-- A buffer with the bytes of `t` from `k` on. -/
def overlay (f : ℕ → Byte) (k : ℕ) (t : List Byte) : ℕ → Byte := fun j =>
  if j < k then f j else if j < k + t.length then t.getD (j - k) 0 else f j

@[simp] theorem overlay_nil (f : ℕ → Byte) (k : ℕ) : overlay f k [] = f := by
  funext j
  rw [overlay, List.length_nil, Nat.add_zero]
  split_ifs <;> rfl

/-- A byte stored and then the rest from the next place on. -/
theorem overlay_update (f : ℕ → Byte) (k : ℕ) (x : Byte) (t : List Byte) :
    overlay (update f k x) (k + 1) t = overlay f k (x :: t) := by
  funext j
  unfold overlay
  rw [List.length_cons]
  rcases Nat.lt_trichotomy j k with hlt | rfl | hgt
  · rw [if_pos (by omega), if_pos hlt, update_of_ne (by omega)]
  · rw [if_pos (by omega), if_neg (by omega), if_pos (by omega), update_self, Nat.sub_self]
    rfl
  · have h1 : ¬ j < k + 1 := by omega
    have h2 : ¬ j < k := by omega
    have hsub : j - k = (j - (k + 1)) + 1 := by omega
    have hend : k + (t.length + 1) = k + 1 + t.length := by omega
    rw [if_neg h1, if_neg h2, hsub, hend, update_of_ne (by omega), List.getD_cons_succ]

variable {f : ℕ → Byte} {l : List Byte}

/-- The loops over spaces drop them. -/
theorem drop_skipSpaces (hf : IsString f l) {size n : ℕ} (hn : n ≤ l.length)
    (hsize : l.length < n + size) :
    l.drop (skipSpaces f size n) = (l.drop n).dropWhile (· == chr ' ') ∧
      skipSpaces f size n ≤ l.length := by
  induction size generalizing n with
  | zero => omega
  | succ size ih =>
    rw [skipSpaces]
    cases hrest : l.drop n with
    | nil =>
      have hne : (0 : Byte) ≠ chr ' ' := by decide
      rw [hf.eq_zero_of_drop hn hrest, if_neg hne, hrest, List.dropWhile_nil]
      exact ⟨rfl, hn⟩
    | cons x rest =>
      obtain ⟨hx, -, hlt, hdrop⟩ := hf.of_drop hrest
      rw [hx]
      by_cases hsp : x = chr ' '
      · rw [if_pos hsp, ← hdrop,
          List.dropWhile_cons_of_pos (p := (· == chr ' ')) (beq_iff_eq.mpr hsp)]
        exact ih hlt (by omega)
      · have hbeq : ¬ (x == chr ' ') = true := fun h => hsp (beq_iff_eq.mp h)
        rw [if_neg hsp, hrest, List.dropWhile_cons_of_neg (p := (· == chr ' ')) hbeq]
        exact ⟨rfl, hn⟩

/-- The loop over the name copies the bytes up to the next space. -/
theorem copyName_eq (hf : IsString f l) {size n k : ℕ} (hn : n ≤ l.length)
    (hsize : l.length < n + size)
    (hk : k + ((l.drop n).takeWhile (· != chr ' ')).length ≤ maxBufferSize + 1) (cmd : ℕ → Byte) :
    ∃ n' ≤ l.length, copyName f size n k cmd
        = some (n', k + ((l.drop n).takeWhile (· != chr ' ')).length,
            overlay cmd k ((l.drop n).takeWhile (· != chr ' '))) ∧
      l.drop n' = (l.drop n).dropWhile (· != chr ' ') := by
  induction size generalizing n k cmd with
  | zero => omega
  | succ size ih =>
    rw [copyName]
    cases hrest : l.drop n with
    | nil =>
      refine ⟨n, hn, ?_, ?_⟩
      · rw [if_neg fun h => h.2 (hf.eq_zero_of_drop hn hrest), List.takeWhile_nil, overlay_nil]
        rfl
      · rw [hrest, List.dropWhile_nil]
    | cons x rest =>
      obtain ⟨hx, hx0, hlt, hdrop⟩ := hf.of_drop hrest
      rw [hx]
      by_cases hsp : x = chr ' '
      · have hbne : ¬ (x != chr ' ') = true := fun h => bne_iff_ne.mp h hsp
        refine ⟨n, hn, ?_, ?_⟩
        · rw [if_neg fun h => h.1 hsp, List.takeWhile_cons_of_neg (p := (· != chr ' ')) hbne,
            overlay_nil]
          rfl
        · rw [hrest, List.dropWhile_cons_of_neg (p := (· != chr ' ')) hbne]
      · have hbne : (x != chr ' ') = true := bne_iff_ne.mpr hsp
        rw [hrest, List.takeWhile_cons_of_pos (p := (· != chr ' ')) hbne, List.length_cons] at hk
        rw [if_pos ⟨hsp, hx0⟩, if_pos (by omega),
          List.takeWhile_cons_of_pos (p := (· != chr ' ')) hbne,
          List.dropWhile_cons_of_pos (p := (· != chr ' ')) hbne, List.length_cons]
        rw [← hdrop] at hk ⊢
        obtain ⟨n', hn', heq, hdrop'⟩ :=
          ih (n := n + 1) hlt (by omega) (k := k + 1) (by omega) (update cmd k x)
        refine ⟨n', hn', ?_, hdrop'⟩
        rw [heq, overlay_update]
        congr 3
        omega

/-- A name that is longer than `cmd` runs out of it. -/
theorem copyName_eq_none (hf : IsString f l) {size n k : ℕ} (hn : n ≤ l.length)
    (hsize : l.length < n + size) (hk : k ≤ maxBufferSize + 1)
    (hlong : maxBufferSize + 1 < k + ((l.drop n).takeWhile (· != chr ' ')).length)
    (cmd : ℕ → Byte) : copyName f size n k cmd = none := by
  induction size generalizing n k cmd with
  | zero => omega
  | succ size ih =>
    rw [copyName]
    cases hrest : l.drop n with
    | nil =>
      rw [hrest, List.takeWhile_nil, List.length_nil] at hlong
      omega
    | cons x rest =>
      obtain ⟨hx, hx0, hlt, hdrop⟩ := hf.of_drop hrest
      rw [hx]
      rw [hrest] at hlong
      by_cases hsp : x = chr ' '
      · have hbne : ¬ (x != chr ' ') = true := fun h => bne_iff_ne.mp h hsp
        rw [List.takeWhile_cons_of_neg (p := (· != chr ' ')) hbne, List.length_nil] at hlong
        omega
      · have hbne : (x != chr ' ') = true := bne_iff_ne.mpr hsp
        rw [List.takeWhile_cons_of_pos (p := (· != chr ' ')) hbne, List.length_cons,
          ← hdrop] at hlong
        rw [if_pos ⟨hsp, hx0⟩]
        split
        · exact ih (n := n + 1) hlt (by omega) (by omega) (by omega) (update cmd k x)
        · rfl

/-- The loop over the arguments copies the rest of the string. -/
theorem copyArguments_eq (hf : IsString f l) {size n j : ℕ} (hn : n ≤ l.length)
    (hsize : l.length < n + size) (hj : j + (l.drop n).length ≤ maxBufferSize)
    (buffer : ℕ → Byte) :
    copyArguments f size n j buffer
      = some (j + (l.drop n).length, overlay buffer j (l.drop n)) := by
  induction size generalizing n j buffer with
  | zero => omega
  | succ size ih =>
    rw [copyArguments]
    cases hrest : l.drop n with
    | nil =>
      rw [if_neg fun h => h (hf.eq_zero_of_drop hn hrest), overlay_nil]
      rfl
    | cons x rest =>
      obtain ⟨hx, hx0, hlt, hdrop⟩ := hf.of_drop hrest
      rw [hx]
      rw [hrest, List.length_cons] at hj
      rw [← hdrop] at hj ⊢
      rw [if_pos hx0, if_pos (by omega), ih (n := n + 1) hlt (by omega) (by omega), overlay_update,
        List.length_cons]
      congr 2
      omega

/-- The buffer `cmd` when `parse` has put a name in it. -/
def nameBuffer (cmd : ℕ → Byte) (name : List Byte) : ℕ → Byte :=
  update (overlay cmd 0 name) name.length 0

/-- The buffer holds the name as a string. -/
theorem nameBuffer_apply (cmd : ℕ → Byte) (name : List Byte) {j : ℕ} (hj : j ≤ name.length) :
    nameBuffer cmd name j = cstr name j := by
  rw [nameBuffer, cstr]
  rcases Nat.eq_or_lt_of_le hj with rfl | hlt
  · rw [update_self, List.getD_eq_getElem?_getD, List.getElem?_eq_none (Nat.le_refl _)]
    rfl
  · rw [update_of_ne (by omega), overlay, if_neg (Nat.not_lt_zero j), if_pos (by omega),
      Nat.sub_zero]

theorem isString_nameBuffer (cmd : ℕ → Byte) {name : List Byte} (h0 : (0 : Byte) ∉ name) :
    IsString (nameBuffer cmd name) name :=
  ⟨h0, fun _ hj => nameBuffer_apply cmd name hj⟩

theorem not_mem_name (h0 : (0 : Byte) ∉ l) : (0 : Byte) ∉ (parse l).1 := by
  intro h
  exact h0 ((List.dropWhile_sublist _).mem ((List.takeWhile_sublist _).mem h))

/-- What `parse` leaves in `cmd` is looked up as the name. -/
theorem readDentryByName_nameBuffer (h0 : (0 : Byte) ∉ l) (fs : Fs) (img : Memory)
    (dentry : Dentry) (cmd : ℕ → Byte) :
    readDentryByName fs img (nameBuffer cmd (parse l).1) dentry
      = readDentryByName fs img (cstr (parse l).1) dentry :=
  readDentryByName_congr (isString_nameBuffer cmd (not_mem_name h0))
    (isString_cstr (not_mem_name h0)) dentry

/-- The spaces before the name, and the name behind them. -/
theorem takeWhile_skipSpaces (hf : IsString f l) {size : ℕ} (hsize : l.length < size) :
    (l.drop (skipSpaces f size 0)).takeWhile (· != chr ' ') = (parse l).1 := by
  rw [(drop_skipSpaces hf (Nat.zero_le _) (by omega)).1]
  rfl

/-- The first three loops: the name, and where the arguments are. -/
theorem copyName_parse (hf : IsString f l) {size : ℕ} (hsize : l.length < size)
    (hname : (parse l).1.length ≤ maxBufferSize + 1) (cmd : ℕ → Byte) :
    ∃ n, copyName f size (skipSpaces f size 0) 0 cmd
        = some (n, (parse l).1.length, overlay cmd 0 (parse l).1) ∧
      l.drop (skipSpaces f size n) = (parse l).2 ∧ skipSpaces f size n ≤ l.length := by
  obtain ⟨hskip, hle⟩ := drop_skipSpaces hf (Nat.zero_le _) (by omega : l.length < 0 + size)
  have hparse := takeWhile_skipSpaces hf hsize
  obtain ⟨n, hn, heq, hdrop⟩ := copyName_eq (k := 0) hf hle
    (by omega : l.length < _ + size) (by rw [hparse]; omega) cmd
  rw [hparse, Nat.zero_add] at heq
  obtain ⟨hskip', hle'⟩ := drop_skipSpaces hf hn (by omega : l.length < n + size)
  refine ⟨n, heq, ?_, hle'⟩
  rw [hskip', hdrop, hskip]
  rfl

/-- **`parse` for the name alone** leaves it in `cmd`. -/
theorem parseLoops_name (hf : IsString f l) {size : ℕ} (hsize : l.length < size)
    (hname : (parse l).1.length ≤ maxBufferSize) (cmd : ℕ → Byte) :
    parseLoops size f cmd none = some (nameBuffer cmd (parse l).1, none) := by
  obtain ⟨n, heq, -⟩ := copyName_parse hf hsize (by omega) cmd
  rw [parseLoops, heq]
  exact if_pos (Nat.lt_succ_of_le hname)

/-- **`parse` with a control block** leaves the arguments there. -/
theorem parseLoops_arguments (hf : IsString f l) {size : ℕ} (hsize : l.length < size)
    (hname : (parse l).1.length ≤ maxBufferSize) (hargs : (parse l).2.length < maxBufferSize)
    (cmd : ℕ → Byte) (p : Pcb) :
    parseLoops size f cmd (some p)
      = some (nameBuffer cmd (parse l).1, some (storeArguments (parse l).2 p)) := by
  obtain ⟨n, heq, hn, hle⟩ := copyName_parse hf hsize (by omega) cmd
  have hcopy := copyArguments_eq (j := 0) hf hle (by omega : l.length < _ + size)
    (by rw [hn]; omega) p.argumentBuffer
  rw [hn, Nat.zero_add] at hcopy
  have hstore : parseArguments size f n p = some (storeArguments (parse l).2 p) := by
    rw [parseArguments, hcopy]
    dsimp only
    rw [if_pos hargs, storeArguments]
    congr 2
    funext j
    rw [update_apply, overlay]
    rcases Nat.lt_trichotomy j (parse l).2.length with hlt | rfl | hgt
    · rw [if_neg (by omega), if_neg (by omega), if_pos (by omega), if_pos hlt, Nat.sub_zero]
    · rw [if_pos rfl, if_neg (Nat.lt_irrefl _), if_pos rfl]
    · have h1 : ¬ j = (parse l).2.length := by omega
      have h2 : ¬ j < (parse l).2.length := by omega
      rw [if_neg h1, if_neg h2, if_neg h1, if_neg (Nat.not_lt_zero j), Nat.zero_add, if_neg h2]
  rw [parseLoops, heq]
  dsimp only
  rw [if_pos (Nat.lt_succ_of_le hname), hstore]
  rfl

/-- **`parse` of a name that is too long** writes behind `cmd`: its last byte, or the zero byte. -/
theorem parseLoops_eq_none (hf : IsString f l) {size : ℕ} (hsize : l.length < size)
    (hname : maxBufferSize < (parse l).1.length) (cmd : ℕ → Byte) (newPcb : Option Pcb) :
    parseLoops size f cmd newPcb = none := by
  obtain ⟨-, hle⟩ := drop_skipSpaces hf (Nat.zero_le _) (by omega : l.length < 0 + size)
  have hparse := takeWhile_skipSpaces hf hsize
  rw [parseLoops]
  rcases Nat.eq_or_lt_of_le (Nat.succ_le_of_lt hname) with heq | hlt
  · obtain ⟨n, hcopy, -⟩ := copyName_parse hf hsize (Nat.le_of_eq heq.symm) cmd
    rw [hcopy]
    dsimp only
    rw [if_neg (by omega)]
  · rw [copyName_eq_none hf hle (by omega) (Nat.zero_le _) (by rw [hparse]; omega) cmd]

/-! ## `getargs` -/

theorem length_dropWhile_lt {f : Byte → Bool} {x : Byte} (hx : f x = true) (rest : List Byte) :
    ((x :: rest).dropWhile f).length < (x :: rest).length := by
  rw [List.dropWhile_cons_of_pos hx, List.length_cons]
  exact Nat.lt_succ_of_le (List.dropWhile_sublist f).length_le

/-- A command with arguments has a name and a space besides. -/
theorem length_parse_arguments (l : List Byte) :
    (parse l).2 = [] ∨ (parse l).2.length + 2 ≤ l.length := by
  have hle := (List.dropWhile_sublist (l := l) (· == chr ' ')).length_le
  rw [parse]
  dsimp only
  cases hs : l.dropWhile (· == chr ' ') with
  | nil => exact .inl rfl
  | cons x rest =>
    have hx : x ≠ chr ' ' := by
      have hhead := List.head_dropWhile_not (· == chr ' ') (l := l)
        (by rw [hs]; exact List.cons_ne_nil _ _)
      simp only [hs, List.head_cons] at hhead
      exact beq_eq_false_iff_ne.mp hhead
    have hname := length_dropWhile_lt (f := (· != chr ' ')) (bne_iff_ne.mpr hx) rest
    rw [hs] at hle
    cases ht : (x :: rest).dropWhile (· != chr ' ') with
    | nil => exact .inl rfl
    | cons y tail =>
      have hy : y = chr ' ' := by
        have hhead := List.head_dropWhile_not (· != chr ' ') (l := x :: rest)
          (by rw [ht]; exact List.cons_ne_nil _ _)
        simp only [ht, List.head_cons] at hhead
        exact bne_eq_false_iff_eq.mp hhead
      have hspace := length_dropWhile_lt (f := (· == chr ' ')) (beq_iff_eq.mpr hy) tail
      rw [ht] at hname
      right
      omega

/-- The arguments of the copy fit `argument_buffer` with their zero byte. -/
theorem length_arguments_lt (command : List Byte) :
    (parse (command.take maxBufferSize)).2.length + 1 ≤ maxBufferSize := by
  have hle : (command.take maxBufferSize).length ≤ 128 := List.length_take_le _ _
  rcases length_parse_arguments (command.take maxBufferSize) with h | h
  · rw [h]
    decide
  · show _ ≤ 128
    omega

/-- The control block `p` holds the arguments `a`. -/
def Stores (p : Pcb) (a : List Byte) : Prop :=
  p.argumentBufferSize = BitVec.ofNat 32 (a.length + 1) ∧
    ∀ j ≤ a.length, p.argumentBuffer j = cstr a j

theorem stores_storeArguments (p : Pcb) (a : List Byte) : Stores (storeArguments a p) a := by
  refine ⟨rfl, ?_⟩
  intro j hj
  rw [storeArguments, cstr]
  dsimp only
  rcases Nat.eq_or_lt_of_le hj with rfl | hlt
  · rw [if_neg (Nat.lt_irrefl _), if_pos rfl, List.getD_eq_getElem?_getD,
      List.getElem?_eq_none (Nat.le_refl _)]
    rfl
  · rw [if_pos hlt]

/-- `getargs` for a process with the control block `p` hands out the arguments `a`: when there are
any and they fit with their zero byte the buffer holds them, and zero bytes after them. -/
def HandsOut (p : Pcb) (a : List Byte) : Prop :=
  ∀ (mem : Memory) (buf nbytes : Word), accessOk buf ≠ error → 0 ≤ nbytes.toInt →
    let r := (sysGetargs p mem buf nbytes).val
    (r.1 = 0 ↔ a ≠ [] ∧ a.length + 1 ≤ nbytes.toNat) ∧
      (r.1 = 0 → (∀ j < nbytes.toNat, r.2.view buf j = a.getD j 0) ∧
        ∀ x, ¬ InSpan x buf nbytes.toNat → r.2 x = mem x) ∧
      (r.1 ≠ 0 → r = (error, mem))

section Getargs

variable {p : Pcb} {mem : Memory} {buf nbytes : Word}

/-- `getargs` turns away a call before it looks at the address. -/
theorem sysGetargs_of_rejected
    (h : buf = 0 ∨ nbytes < p.argumentBufferSize ∨ p.argumentBufferSize ≤ 1) :
    (sysGetargs p mem buf nbytes).val = (error, mem) := by
  rw [sysGetargs, if_pos h]
  rfl

/-- A call that is not turned away copies all the arguments. -/
theorem copySize_of_accepted
    (h : ¬ (buf = 0 ∨ nbytes < p.argumentBufferSize ∨ p.argumentBufferSize ≤ 1)) :
    (if p.argumentBufferSize < nbytes then p.argumentBufferSize else nbytes).toNat
      = p.argumentBufferSize.toNat := by
  obtain ⟨-, h'⟩ := not_or.mp h
  obtain ⟨hlt, -⟩ := not_or.mp h'
  split <;> bv_omega

theorem toInt_eq_toNat_of_nonneg (h : 0 ≤ nbytes.toInt) : nbytes.toInt = nbytes.toNat := by
  rw [BitVec.toInt_eq_toNat_cond] at h ⊢
  split at h
  · rename_i hsmall
    rw [if_pos hsmall]
  · omega

/-- `getargs` clears the buffer and copies the arguments. -/
theorem sysGetargs_of_accepted
    (h : ¬ (buf = 0 ∨ nbytes < p.argumentBufferSize ∨ p.argumentBufferSize ≤ 1))
    (hok : accessOk buf ≠ error) (hpos : 0 ≤ nbytes.toInt) :
    (sysGetargs p mem buf nbytes).val
      = (0, (mem.fill buf 0 nbytes.toNat).patch buf 0 p.argumentBufferSize.toNat
          p.argumentBuffer) := by
  -- a count that is not negative is the same for the loop and for `memcpy`
  have hfill : nbytes.toInt.toNat = nbytes.toNat := by
    rw [toInt_eq_toNat_of_nonneg hpos, Int.toNat_natCast]
  rw [sysGetargs, if_neg h, if_neg hok, Traced.val_bind, Traced.val_fill, Traced.val_bind,
    Traced.val_patch, copySize_of_accepted h, hfill]
  rfl

end Getargs

/-- **`getargs`** hands out what the control block holds. -/
theorem Stores.handsOut {p : Pcb} {a : List Byte} (h : Stores p a)
    (ha : a.length + 1 ≤ maxBufferSize) : HandsOut p a := by
  intro mem buf nbytes hok hpos r
  obtain ⟨hsize, hbuffer⟩ := h
  have herr : (error : Word) ≠ 0 := by decide
  have hlen : a.length + 1 ≤ 128 := ha
  have hsize' : p.argumentBufferSize.toNat = a.length + 1 := by
    rw [hsize, BitVec.toNat_ofNat, Nat.mod_eq_of_lt (by omega)]
  have hnil : a = [] ↔ a.length = 0 := List.length_eq_zero_iff.symm
  -- turned away: exactly when the arguments do not fit or there are none
  by_cases hargs : buf = 0 ∨ nbytes < p.argumentBufferSize ∨ p.argumentBufferSize ≤ 1
  · have hr : r = (error, mem) := sysGetargs_of_rejected hargs
    have hnot : ¬ (a ≠ [] ∧ a.length + 1 ≤ nbytes.toNat) := by
      intro hgood
      rw [Ne, hnil] at hgood
      rcases hargs with h | h | h
      · rw [h] at hok
        exact hok rfl
      · bv_omega
      · bv_omega
    rw [hr]
    exact ⟨iff_of_false herr hnot, fun h => absurd h herr, fun _ => rfl⟩
  · obtain ⟨-, hargs'⟩ := not_or.mp hargs
    obtain ⟨hlt, hle⟩ := not_or.mp hargs'
    have hlt' : a.length + 1 ≤ nbytes.toNat := by bv_omega
    have hle' : 1 < a.length + 1 := by bv_omega
    have hr : r = (0, (mem.fill buf 0 nbytes.toNat).patch buf 0 (a.length + 1)
        p.argumentBuffer) := by
      rw [← hsize']
      exact sysGetargs_of_accepted hargs hok hpos
    rw [hr]
    refine ⟨iff_of_true rfl ⟨?_, hlt'⟩, fun _ => ⟨?_, ?_⟩, fun h => absurd rfl h⟩
    · rw [Ne, hnil]
      omega
    · intro j hj
      have hoff : (buf + BitVec.ofNat 32 j - buf).toNat = j := by
        have := nbytes.isLt
        bv_omega
      show (mem.fill buf 0 nbytes.toNat).patch buf 0 (a.length + 1) p.argumentBuffer
        (buf + BitVec.ofNat 32 j) = _
      rw [Memory.patch, hoff]
      -- the string with its zero byte, and the `memset` behind it
      by_cases hja : j < a.length + 1
      · rw [if_pos ⟨Nat.zero_le j, hja⟩, hbuffer j (Nat.le_of_lt_succ hja), cstr]
      · rw [if_neg fun h => hja h.2, Memory.fill, if_pos (inSpan_add_ofNat hj),
          List.getD_eq_getElem?_getD, List.getElem?_eq_none (by omega)]
        rfl
    · intro x hx
      have hx' : ¬ (x - buf).toNat < nbytes.toNat := hx
      show (mem.fill buf 0 nbytes.toNat).patch buf 0 (a.length + 1) p.argumentBuffer x = _
      rw [Memory.patch, if_neg fun h => hx' (by omega), Memory.fill, if_neg hx]

/-! ## The record of the commands -/

/-- The command that an operation executes when it starts a program. -/
def Op.command : Op → List Byte
  | .execute _ (some command) => command
  | _ => shell

/-- The command each process was started with, when an operation starts one. -/
def recordCommand (m : Machine) (k : Kernel) (op : Op) (k' : Kernel)
    (started : Slot → Option (List Byte)) : Slot → Option (List Byte) :=
  match op.run m (k.entered op.frame), getPcb k'.esp with
  | some (.enter _, _), some c => update started c (some op.command)
  | _, _ => started

/-- The kernel with the record of the commands. It boots by executing a shell in slot 0. -/
def commandLTS (m : Machine) : LTS (Kernel × (Slot → Option (List Byte))) Op :=
  (kernelLTS m).history (fun _ => update (fun _ => none) 0 (some shell)) (recordCommand m)

theorem commandLTS_step (h : (kernelLTS m).step k op k') (started : Slot → Option (List Byte)) :
    (commandLTS m).step (k, started) op (k', recordCommand m k op k' started) := ⟨h, rfl⟩

/-- A command is a string, and its name fits `cmd`. -/
def WellFormed (command : List Byte) : Prop :=
  (0 : Byte) ∉ command ∧ (parse command).1.length ≤ maxBufferSize

/-- What is executed is a well-formed command. -/
def CommandsWellFormed (_ : Kernel × (Slot → Option (List Byte))) (op : Op) : Prop :=
  WellFormed op.command

/-- The arguments of a process are as they were. -/
def Pcb.SameArguments (p q : Pcb) : Prop :=
  p.argumentBufferSize = q.argumentBufferSize ∧ p.argumentBuffer = q.argumentBuffer

/-- An operation leaves the arguments of all processes alone, or it starts a program and leaves the
others alone. -/
def LeavesArguments (k : Kernel) (command : List Byte) (ctl : Control) (k' : Kernel) : Prop :=
  match ctl with
  | .enter _ => ∃ c, getPcb k'.esp = some c ∧
      Stores (k'.pcb c) (parse (command.take maxBufferSize)).2 ∧
      ∀ i, i ≠ c → (k'.pcb i).SameArguments (k.pcb i)
  | _ => ∀ i, (k'.pcb i).SameArguments (k.pcb i)

theorem runChild_arguments (m : Machine) (k : Kernel) (fr : Frame) (command : List Byte) (exe : Exe)
    (pt c : Slot) (eip : Word) :
    LeavesArguments k command (.enter eip) (runChild m k fr command exe pt c) := by
  obtain ⟨-, -, -, -, hesp, -, -⟩ := runChild_tables (m := m) k fr command exe pt c
  refine ⟨c, ?_, ?_, ?_⟩
  · rw [hesp, getPcb_getKstackAddr]
  · have hchild : Stores (childPcb k command pt c) (parse (command.take maxBufferSize)).2 :=
      stores_storeArguments _ _
    rw [runChild_pcb]
    dsimp only
    rw [if_pos rfl]
    cases k.termCurrPcb k.currentActiveTerminal <;>
      · dsimp only
        split_ifs <;> exact hchild
  · intro i hi
    rw [runChild_pcb]
    dsimp only
    rw [if_neg hi]
    split_ifs <;> exact ⟨rfl, rfl⟩

theorem execute_arguments (m : Machine) (k : Kernel) (fr : Frame) (command : List Byte) :
    LeavesArguments k command (execute m k fr (some command)).1
      (execute m k fr (some command)).2 := by
  have hsame : ∀ i, (k.pcb i).SameArguments (k.pcb i) := fun i => ⟨rfl, rfl⟩
  by_cases hnil : command = []
  · rw [execute, if_pos hnil]
    exact hsame
  rw [execute_eq m k fr hnil]
  cases checkProgram m.fs m.img command with
  | none => exact hsame
  | some exe =>
    cases firstFree k.progUsedPage with
    | none => exact hsame
    | some pt =>
      cases firstFree k.pcbUsed with
      | none => exact hsame
      | some c => exact runChild_arguments m _ fr command exe pt c exe.eip

theorem LeavesArguments.of_pcb {k₁ : Kernel} {command : List Byte} {ctl : Control}
    (h : LeavesArguments k₁ command ctl k') (hpcb : k₁.pcb = k.pcb) :
    LeavesArguments k command ctl k' := by
  unfold LeavesArguments at h ⊢
  rw [hpcb] at h
  exact h

theorem freeProgPage_pcb (k : Kernel) (idx : ℕ) : (k.freeProgPage idx).pcb = k.pcb := by
  obtain ⟨used, pde, heq⟩ := exists_freeProgPage k idx
  rw [heq]

theorem setProgPage_pcb (k : Kernel) (idx : ℕ) : (k.setProgPage idx).pcb = k.pcb := by
  obtain ⟨used, pde, heq⟩ := exists_setProgPage k idx
  rw [heq]

/-- What is stored in a control block besides the arguments leaves them alone. -/
theorem sameArguments_setPcb {k₁ : Kernel} (j : Slot) {f : Pcb → Pcb} (hpcb : k₁.pcb = k.pcb)
    (hf : ∀ p, (f p).SameArguments p) (i : Slot) :
    ((k₁.setPcb j f).pcb i).SameArguments (k.pcb i) := by
  rw [Kernel.setPcb, hpcb]
  dsimp only
  rcases eq_or_ne i j with rfl | hne
  · rw [update_self]
    exact hf _
  · rw [update_of_ne hne]
    exact ⟨rfl, rfl⟩

/-- A `halt` stores a return value for the parent, or executes a shell. -/
theorem halt_arguments (m : Machine) (k : Kernel) (fr sub : Frame) (arg : Word) :
    LeavesArguments k shell (halt m k fr sub arg).1 (halt m k fr sub arg).2 := by
  rw [halt]
  cases (k.pcb fr.pcb).parent with
  | some p =>
    unfold LeavesArguments
    dsimp only
    apply sameArguments_setPcb p
    · exact (setProgPage_pcb _ _).trans (freeProgPage_pcb _ _)
    · exact fun q => ⟨rfl, rfl⟩
  | none =>
    dsimp only
    have hpcb : ((((k.setTermCurr (k.pcb fr.pcb).terminalNumber none).freeProgPage
        (k.pcb fr.pcb).ptIdx).setTssEsp0 (k.pcb fr.pcb).oldTssEsp).freePcb
        (k.pcb fr.pcb).pcbIdx).pcb = k.pcb := freeProgPage_pcb _ _
    have hshell := (execute_arguments m _ sub shell).of_pcb hpcb
    split
    · rename_i heq
      rw [heq] at hshell
      exact hshell
    · exact hshell

/-- A tick stores where the running process continues. -/
theorem doHandlePit_arguments {ctl : Control} (h : doHandlePit m k fr = some (ctl, k'))
    (command : List Byte) : LeavesArguments k command ctl k' := by
  rw [doHandlePit] at h
  split at h
  · cases h
    exact fun i => ⟨rfl, rfl⟩
  · split at h
    · cases h
    · rename_i q hq
      obtain ⟨next, -, heq⟩ := Option.map_eq_some_iff.mp h
      rw [switchTo] at heq
      cases heq
      unfold LeavesArguments
      dsimp only
      apply sameArguments_setPcb fr.pcb
      · exact setProgPage_pcb _ _
      · exact fun q => ⟨rfl, rfl⟩

/-- **One operation** stores the arguments of the program that it starts, and no others. -/
theorem run_arguments {ctl : Control} (h : op.run m k = some (ctl, k')) :
    LeavesArguments k op.command ctl k' := by
  match op with
  | .execute fr none =>
    cases Option.some.inj h
    exact fun i => ⟨rfl, rfl⟩
  | .execute fr (some command) =>
    have heq : execute m k fr (some command) = (ctl, k') := Option.some.inj h
    have hexec := execute_arguments m k fr command
    rw [heq] at hexec
    exact hexec
  | .halt fr sub arg =>
    have heq : halt m k fr sub arg = (ctl, k') := Option.some.inj h
    have hhalt := halt_arguments m k fr sub arg
    rw [heq] at hhalt
    exact hhalt
  | .switch fr new =>
    have heq : changeVideoMem m k fr k.currentActiveTerminal new = (ctl, k') := Option.some.inj h
    rcases changeVideoMem_cases m k fr k.currentActiveTerminal new with hno | ⟨k₁, hk₁, hcase⟩
    · rw [hno] at heq
      cases heq
      exact fun i => ⟨rfl, rfl⟩
    · have hpcb : k₁.pcb = k.pcb := by
        rw [hk₁]
        rfl
      rcases hcase with ⟨-, hret⟩ | ⟨-, -, hexec⟩
      · rw [hret] at heq
        cases heq
        intro i
        rw [hpcb]
        exact ⟨rfl, rfl⟩
      · have hshell := (execute_arguments m k₁ fr shell).of_pcb hpcb
        rw [hexec] at heq
        rw [heq] at hshell
        exact hshell
  | .tick fr => exact doHandlePit_arguments h shell

/-! ## Runs -/

variable {started : Slot → Option (List Byte)} {command : List Byte}

theorem Stores.of_same {p q : Pcb} {a : List Byte} (h : Stores q a) (hsame : p.SameArguments q) :
    Stores p a := by
  rw [Stores, hsame.1, hsame.2]
  exact h

/-- Each process has the arguments of the command that it was started with. -/
def CommandInv (q : Kernel × (Slot → Option (List Byte))) : Prop :=
  ∀ i command, q.2 i = some command →
    WellFormed command ∧ Stores (q.1.pcb i) (parse (command.take maxBufferSize)).2

theorem commandInv_init {q : Kernel × (Slot → Option (List Byte))} (h : (commandLTS m).init q) :
    CommandInv q := by
  obtain ⟨⟨pcb, progPage, fr, hfr, hk⟩, hstart⟩ := h
  obtain ⟨c, eip, k', hc, hexec, hst⟩ := execute_shell (k := bootKernel pcb progPage) m rfl
    (Option.some_ne_none 0) fr
  obtain rfl : 0 = c := Option.some.inj hc
  have hshell := execute_arguments m (bootKernel pcb progPage) fr shell
  rw [hexec] at hk hshell
  obtain ⟨c, hesp, hstores, -⟩ := hshell
  rw [hst.esp, getPcb_getKstackAddr] at hesp
  obtain rfl := Option.some.inj hesp
  intro i command hi
  rw [hstart] at hi
  change update (fun _ => none) 0 (some shell) i = some command at hi
  rw [update_apply] at hi
  split_ifs at hi with h0
  obtain rfl := Option.some.inj hi
  rw [h0, hk]
  exact ⟨by unfold WellFormed; decide, hstores⟩

/-- **One step** keeps what is recorded in line with what is stored. -/
theorem CommandInv.step {q q' : Kernel × (Slot → Option (List Byte))} (h : CommandInv q)
    (hok : CommandsWellFormed q op) (hst : (commandLTS m).step q op q') : CommandInv q' := by
  obtain ⟨⟨hop, ctl, hrun⟩, hrecord⟩ := hst
  have hargs := run_arguments hrun
  intro i command hi
  rw [hrecord, recordCommand, hrun] at hi
  have hkept : (q'.1.pcb i).SameArguments ((q.1.entered op.frame).pcb i) → q.2 i = some command →
      WellFormed command ∧ Stores (q'.1.pcb i) (parse (command.take maxBufferSize)).2 := by
    intro hsame hi
    obtain ⟨hwf, hstores⟩ := h i command hi
    exact ⟨hwf, hstores.of_same hsame⟩
  cases ctl with
  | enter eip =>
    obtain ⟨c, hesp, hstores, hother⟩ := hargs
    rw [hesp] at hi
    dsimp only at hi
    rw [update_apply] at hi
    split_ifs at hi with hic
    · obtain rfl := Option.some.inj hi
      rw [hic]
      exact ⟨hok, hstores⟩
    · exact hkept (hother i hic) hi
  | ret v => exact hkept (hargs i) hi
  | jump esp ebp eip => exact hkept (hargs i) hi

/-- What the first `parse` leaves in `cmd` is looked up as the name that the checks of `execute` are
about. -/
theorem readDentryByName_parseLoops (h : WellFormed command) (fs : Fs) (img : Memory)
    (dentry : Dentry) (cmd : ℕ → Byte) :
    ∃ cmd', parseLoops (command.length + 1) (cstr command) cmd none = some (cmd', none) ∧
      readDentryByName fs img cmd' dentry
        = readDentryByName fs img (cstr (parse command).1) dentry :=
  ⟨_, parseLoops_name (isString_cstr h.1) (Nat.lt_succ_self _) h.2 cmd,
    readDentryByName_nameBuffer h.1 fs img dentry cmd⟩

theorem not_mem_take (h : WellFormed command) : (0 : Byte) ∉ command.take maxBufferSize :=
  fun hmem => h.1 (List.mem_of_mem_take hmem)

theorem length_name_take (command : List Byte) :
    (parse (command.take maxBufferSize)).1.length ≤ maxBufferSize := by
  have htake : (command.take maxBufferSize).length ≤ maxBufferSize := List.length_take_le _ _
  have hspaces :=
    (List.dropWhile_sublist (l := command.take maxBufferSize) (· == chr ' ')).length_le
  have hname := (List.takeWhile_sublist
    (l := (command.take maxBufferSize).dropWhile (· == chr ' ')) (· != chr ' ')).length_le
  rw [parse]
  exact (hname.trans hspaces).trans htake

/-- **Command line to arguments.** In every run, let `command` be what the process in slot `i` was
started with, `s` its first bytes without leading spaces, and `a` what follows the name and the
spaces after it. Then `a` fits `argument_buffer`, `parse` stores it there, and `getargs` hands it
out. -/
theorem getargs_of_reach (h : (commandLTS m).Reach CommandsWellFormed (k, started))
    (hi : started i = some command) :
    let s := (command.take maxBufferSize).dropWhile (· == chr ' ')
    let a := (s.dropWhile (· != chr ' ')).dropWhile (· == chr ' ')
    a.length + 1 ≤ maxBufferSize ∧
      (∀ cmd p, ∃ cmd', parseLoops (maxBufferSize + 1) (cstr (command.take maxBufferSize)) cmd
        (some p) = some (cmd', some (storeArguments a p))) ∧
      HandsOut (k.pcb i) a := by
  have hinv : CommandInv (k, started) := by
    apply h.invariant
    · intro q hinit
      exact commandInv_init hinit
    · intro q op q' hinv hok hst
      exact hinv.step hok hst
  obtain ⟨hwf, hstores⟩ := hinv i command hi
  have hlen := length_arguments_lt command
  refine ⟨hlen, ?_, hstores.handsOut hlen⟩
  intro cmd p
  refine ⟨_, parseLoops_arguments (isString_cstr (not_mem_take hwf)) ?_ (length_name_take command)
    hlen cmd p⟩
  exact Nat.lt_succ_of_le (List.length_take_le _ _)

/-! ## A program with arguments -/

/-- `" shell  -a b"`. -/
def sampleCommand : List Byte :=
  str [' ', 's', 'h', 'e', 'l', 'l', ' ', ' ', '-', 'a', ' ', 'b']

/-- The first shell has executed the command. -/
def sampleCalled : Kernel :=
  (execute sampleMachine (sampleBoot.entered (Frame.top 0)) (Frame.top 0) (some sampleCommand)).2

theorem sampleCalled_step :
    (kernelLTS sampleMachine).step sampleBoot (.execute (Frame.top 0) (some sampleCommand))
      sampleCalled :=
  ⟨⟨.inl (by decide), trivial⟩, _, rfl⟩

theorem sampleCalled_reach : (commandLTS sampleMachine).Reach CommandsWellFormed
    (sampleCalled, recordCommand sampleMachine sampleBoot
      (.execute (Frame.top 0) (some sampleCommand)) sampleCalled
      (update (fun _ => none) 0 (some shell))) := by
  have hwf : WellFormed sampleCommand := by
    unfold WellFormed
    decide
  have hboot : (commandLTS sampleMachine).init
      (sampleBoot, update (fun _ => none) 0 (some shell)) := ⟨sampleBoot_init, rfl⟩
  exact .step (a := .execute (Frame.top 0) (some sampleCommand)) (.init hboot) hwf
    (commandLTS_step sampleCalled_step _)

/-- The program that it has started gets the arguments as they were written. -/
theorem getargs_of_reach_sample : HandsOut (sampleCalled.pcb 1) (str ['-', 'a', ' ', 'b']) := by
  have hstarted : recordCommand sampleMachine sampleBoot
      (.execute (Frame.top 0) (some sampleCommand)) sampleCalled
      (update (fun _ => none) 0 (some shell)) 1 = some sampleCommand := by
    decide
  exact (getargs_of_reach sampleCalled_reach hstarted).2.2

end HieUnix
