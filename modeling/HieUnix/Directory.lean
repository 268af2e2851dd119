import HieUnix.FileRead

/-!
# Listing a directory

`dir_open` copies the names of all entries into `dir_buf`, 32 bytes each, and `dir_read` hands
them out through a position. The first half of this file shows that `dir_buf` is the listing
whatever was in it before; the second compares a list of `dir_read` calls with cursor reads of
the listing.

The two agree as long as a call stays short of the end. A call that reaches the end copies the
last bytes and returns 0, where `read_data` returns their number, so the reader never sees
them: `ls`, which reads one name at a time, prints every name but the last.
-/

namespace HieUnix

variable {fs : Fs} {img : Memory}

/-! ## The listing -/

namespace Fs

variable (fs : Fs) (img : Memory)

/-- Byte `j` of the name of entry `k`, zero from the first zero byte on. -/
def paddedName (k j : ℕ) : Byte :=
  if ∀ i ≤ j, img.view (fs.dentryAddr k) i ≠ 0 then img.view (fs.dentryAddr k) j else 0

/-- The names of all entries, 32 bytes each. -/
def listing : List Byte :=
  (List.range (fnameSize * fs.numDentries.toNat)).map fun p =>
    fs.paddedName img (p / fnameSize) (p % fnameSize)

@[simp] theorem length_listing :
    (fs.listing img).length = fnameSize * fs.numDentries.toNat := by
  simp [listing]

/-- The directory is sound: `dir_buf` has room for the names, and each name ends within the
record of its entry (it does at the latest in the type, when that is a known one). -/
structure GoodDir : Prop where
  count : fs.numDentries.toNat ≤ 31
  terminated : ∀ k < fs.numDentries.toNat, ∃ j < entrySize, img.view (fs.dentryAddr k) j = 0

end Fs

/-! ## `dir_open` -/

/-- A lookup succeeds only in a directory with an entry. -/
theorem numDentries_pos_of_lookup {fname : ℕ → Byte} {dentry entry : Dentry}
    (h : readDentryByName fs img fname dentry = some entry) : 0 < fs.numDentries.toNat := by
  rcases Nat.eq_zero_or_pos fs.numDentries.toNat with h0 | hpos
  · rw [readDentryByName, if_neg (fsBaseAdr_ne_zero_of_lookup h), h0, readDentryByNameLoop] at h
    cases h
  · exact hpos

/-- `strcpy` stays in the object when the string ends there. -/
theorem strcpyLoop_isSome_iff {src : ℕ → Byte} (fuel i : ℕ) (dest : ℕ → Byte) :
    (∃ d, strcpyLoop src fuel i dest = some d) ↔ ∃ j, i ≤ j ∧ j < i + fuel ∧ src j = 0 := by
  induction fuel generalizing i dest with
  | zero =>
    refine iff_of_false ?_ ?_
    · rintro ⟨d, hd⟩
      cases hd
    · rintro ⟨j, h1, h2, -⟩
      omega
  | succ fuel ih =>
    rw [strcpyLoop]
    split
    · rename_i hi
      rw [ih]
      constructor
      · rintro ⟨j, h1, h2, hj⟩
        exact ⟨j, by omega, by omega, hj⟩
      · rintro ⟨j, h1, h2, hj⟩
        have hne : j ≠ i := fun he => hi (he ▸ hj)
        exact ⟨j, by omega, by omega, hj⟩
    · rename_i hi
      exact iff_of_true ⟨_, rfl⟩ ⟨i, Nat.le_refl i, by omega, not_not.mp hi⟩

/-- The name of an entry ends within its record. -/
def Fs.Ends (fs : Fs) (img : Memory) (k : ℕ) : Prop :=
  ∃ j < entrySize, img.view (fs.dentryAddr k) j = 0

/-- `read_dentry_by_index` on an entry whose name ends reads its name. -/
theorem readDentryByIndex_eq (hbase : fs.fsBaseAdr ≠ 0) {k : ℕ} (hk : k < fs.numDentries.toNat)
    (hends : fs.Ends img k) (dentry : Dentry) :
    ∃ fname, readDentryByIndex fs img k dentry = some (0, copyDentry fs img k fname) ∧
      ∀ j, (∀ i < j, img.view (fs.dentryAddr k) i ≠ 0) →
        fname j = img.view (fs.dentryAddr k) j := by
  obtain ⟨j, hj, hz⟩ := hends
  obtain ⟨d, hd⟩ := (strcpyLoop_isSome_iff entrySize 0 dentry.fname).mpr
    ⟨j, Nat.zero_le j, by omega, hz⟩
  refine ⟨d, ?_, fun j hj => strcpy_apply hd hj⟩
  rw [readDentryByIndex, if_neg hbase, if_neg (by omega), strcpy, hd]
  rfl

/-- On one whose name does not end it leaves the dentry. -/
theorem readDentryByIndex_eq_none (hbase : fs.fsBaseAdr ≠ 0) {k : ℕ}
    (hk : k < fs.numDentries.toNat) (hends : ¬ fs.Ends img k) (dentry : Dentry) :
    readDentryByIndex fs img k dentry = none := by
  rw [readDentryByIndex, if_neg hbase, if_neg (by omega), Option.map_eq_none_iff,
    Option.eq_none_iff_forall_ne_some]
  intro d hd
  obtain ⟨j, -, hj, hz⟩ := (strcpyLoop_isSome_iff entrySize 0 dentry.fname).mp ⟨d, hd⟩
  exact hends ⟨j, by omega, hz⟩

/-- Padding a name with `strncpy` after `strcpy` pads the name of the entry. -/
theorem strncpy_eq_paddedName {k j : ℕ} {fname dest : ℕ → Byte} (hj : j < fnameSize)
    (hname : ∀ j, (∀ i < j, img.view (fs.dentryAddr k) i ≠ 0) →
      fname j = img.view (fs.dentryAddr k) j) :
    strncpy dest fname fnameSize j = fs.paddedName img k j := by
  -- the two strings have their first zero byte at the same place
  have hiff : ∀ n, (∀ i ≤ n, fname i ≠ 0) ↔ ∀ i ≤ n, img.view (fs.dentryAddr k) i ≠ 0 := by
    intro n
    induction n with
    | zero =>
      simp only [Nat.le_zero_eq, forall_eq, hname 0 fun i hi => absurd hi (Nat.not_lt_zero i)]
    | succ n ih =>
      constructor
      · intro h i hi
        have hlow := ih.mp fun i hi => h i (by omega)
        rcases Nat.eq_or_lt_of_le hi with rfl | hlt
        · rw [← hname (n + 1) fun i hi => hlow i (by omega)]
          exact h (n + 1) le_rfl
        · exact hlow i (by omega)
      · intro h i hi
        rw [hname i fun i' hi' => h i' (by omega)]
        exact h i hi
  rw [strncpy_of_lt hj, Fs.paddedName]
  by_cases h : ∀ i ≤ j, img.view (fs.dentryAddr k) i ≠ 0
  · rw [if_pos ((hiff j).mpr h), if_pos h, hname j fun i hi => h i (by omega)]
  · rw [if_neg fun h' => h ((hiff j).mp h'), if_neg h]

/-- `dir_buf` holds the names of the first `n` entries. -/
structure DirState.Lists (dir : DirState) (fs : Fs) (img : Memory) (n : ℕ) : Prop where
  length : dir.dirLength.toNat = fnameSize * n
  names : ∀ p < fnameSize * n, dir.dirBuf p = fs.paddedName img (p / fnameSize) (p % fnameSize)

/-- `dir_buf` when the name `fname` has been copied to its end. -/
def DirState.named (dir : DirState) (fname : ℕ → Byte) : ℕ → Byte := fun k =>
  if k < dir.dirLength.toNat then dir.dirBuf k
  else strncpy (fun j => dir.dirBuf (dir.dirLength.toNat + j)) fname fnameSize
    (k - dir.dirLength.toNat)

/-- What turn `i` of the fill loop does to `dir_buf` and its length. -/
def DirState.addName (dir : DirState) (i : ℕ) (fname : ℕ → Byte) : DirState where
  dirBuf k :=
    if dir.dirLength.toNat + fnameSize + strlen (dir.named fname) maxBufSize ≤ k ∧
        k < dir.dirLength.toNat + fnameSize + (i + 1) * fnameSize then 0
    else dir.named fname k
  dirLength := dir.dirLength + BitVec.ofNat 32 fnameSize

/-- The name of the next entry, behind the names before. -/
theorem DirState.Lists.named {dir : DirState} {i : ℕ} (hdir : dir.Lists fs img i)
    {fname : ℕ → Byte} (hname : ∀ j, (∀ l < j, img.view (fs.dentryAddr i) l ≠ 0) →
      fname j = img.view (fs.dentryAddr i) j) {p : ℕ} (hp : p < fnameSize * (i + 1)) :
    dir.named fname p = fs.paddedName img (p / fnameSize) (p % fnameSize) := by
  rw [DirState.named, hdir.length]
  by_cases hp' : p < fnameSize * i
  · rw [if_pos hp', hdir.names p hp']
  · have hdiv : p / fnameSize = i := by simp only [fnameSize] at *; omega
    have hmod : p % fnameSize = p - fnameSize * i := by simp only [fnameSize] at *; omega
    have hlt : p - fnameSize * i < fnameSize := by simp only [fnameSize] at *; omega
    rw [if_neg hp', strncpy_eq_paddedName hlt hname, hdiv, hmod]

/-- One turn of the fill loop adds one name, and the zero bytes it writes ahead of it touch
no name. -/
theorem DirState.Lists.addName {dir : DirState} {i : ℕ} (hdir : dir.Lists fs img i)
    (hi : fnameSize * (i + 1) < 2 ^ 32) {fname : ℕ → Byte}
    (hname : ∀ j, (∀ l < j, img.view (fs.dentryAddr i) l ≠ 0) →
      fname j = img.view (fs.dentryAddr i) j) : (dir.addName i fname).Lists fs img (i + 1) := by
  have hlen := hdir.length
  constructor
  · show (dir.dirLength + BitVec.ofNat 32 fnameSize).toNat = _
    rw [BitVec.toNat_add, hlen]
    change (32 * i + 32) % 2 ^ 32 = 32 * (i + 1)
    change 32 * (i + 1) < 2 ^ 32 at hi
    omega
  · intro p hp
    -- the zero bytes written ahead are past this name
    have hahead : ¬ (dir.dirLength.toNat + fnameSize + strlen (dir.named fname) maxBufSize ≤ p ∧
        p < dir.dirLength.toNat + fnameSize + (i + 1) * fnameSize) := by
      intro h
      have hle := h.1
      simp only [fnameSize] at *
      omega
    exact (if_neg hahead).trans (hdir.named hname hp)

/-- The fill loop adds the names of the entries that are left. -/
theorem dirOpenLoop_eq (hbase : fs.fsBaseAdr ≠ 0) (hgood : fs.GoodDir img) {fuel i : ℕ}
    (hn : i + fuel = fs.numDentries.toNat) (dEntry : Dentry) (dir : DirState)
    (hdir : dir.Lists fs img i) :
    ∃ dir', dirOpenLoop fs img fuel i dEntry dir = some dir' ∧
      dir'.Lists fs img fs.numDentries.toNat := by
  have hcount := hgood.count
  induction fuel generalizing i dEntry dir with
  | zero =>
    obtain rfl : i = fs.numDentries.toNat := by omega
    exact ⟨dir, rfl, hdir⟩
  | succ fuel ih =>
    obtain ⟨fname, hread, hname⟩ :=
      readDentryByIndex_eq hbase (k := i) (by omega) (hgood.terminated i (by omega)) dEntry
    rw [dirOpenLoop, hread]
    dsimp only
    rw [if_pos rfl]
    exact ih (by omega) _ _ (hdir.addName (by simp only [fnameSize]; omega) hname)

/-- The descriptor of an open directory at position `pos`. -/
def openedDir (pos : ℕ) : Fd := ⟨some .dirFops, 0, BitVec.ofNat 32 pos, 1⟩

/-- **`dir_open` on a sound directory** fills `dir_buf` with the listing. -/
theorem dirOpen_eq {fname : ℕ → Byte} {entry : Dentry}
    (hlookup : readDentryByName fs img fname Dentry.uninit = some entry)
    (htype : entry.type = dirFile) (hgood : fs.GoodDir img) (fd : Fd) (dir : DirState) :
    ∃ dir', dirOpen fs img fd fname dir = some (0, openedDir 0, dir') ∧
      dir'.Lists fs img fs.numDentries.toNat := by
  have hbase := fsBaseAdr_ne_zero_of_lookup hlookup
  obtain ⟨dir', hloop, hlists⟩ := dirOpenLoop_eq hbase hgood (Nat.zero_add _) entry
    { dir with dirLength := 0 } ⟨rfl, fun p hp => by omega⟩
  refine ⟨dir', ?_, hlists⟩
  rw [dirOpen, hlookup]
  dsimp only
  rw [if_pos htype, hloop]
  rfl

/-- A fill loop that comes to its end has found the end of every name. -/
theorem ends_of_dirOpenLoop (hbase : fs.fsBaseAdr ≠ 0) {fuel i : ℕ}
    (hn : i + fuel = fs.numDentries.toNat) {dEntry : Dentry} {dir dir' : DirState}
    (hloop : dirOpenLoop fs img fuel i dEntry dir = some dir') {k : ℕ} (hik : i ≤ k)
    (hk : k < fs.numDentries.toNat) : fs.Ends img k := by
  induction fuel generalizing i dEntry dir with
  | zero => omega
  | succ fuel ih =>
    rw [dirOpenLoop] at hloop
    by_cases hends : fs.Ends img i
    · rcases Nat.eq_or_lt_of_le hik with rfl | hlt
      · exact hends
      · obtain ⟨fname, hread, -⟩ := readDentryByIndex_eq hbase (k := i) (by omega) hends dEntry
        rw [hread] at hloop
        dsimp only at hloop
        rw [if_pos rfl] at hloop
        exact ih (by omega) hloop hlt
    · rw [readDentryByIndex_eq_none hbase (by omega) hends] at hloop
      cases hloop

/-- `dir_open` succeeds on a directory only. -/
theorem lookup_of_dirOpen {fname : ℕ → Byte} {fd fd' : Fd} {dir dir' : DirState}
    (hopen : dirOpen fs img fd fname dir = some (0, fd', dir')) :
    ∃ entry, readDentryByName fs img fname Dentry.uninit = some entry ∧ entry.type = dirFile := by
  have hne : (error : Word) ≠ 0 := by decide
  rw [dirOpen] at hopen
  cases hlookup : readDentryByName fs img fname Dentry.uninit with
  | none =>
    rw [hlookup] at hopen
    injection hopen with hopen
    exact absurd (congrArg Prod.fst hopen) hne
  | some entry =>
    rw [hlookup] at hopen
    dsimp only at hopen
    by_cases htype : entry.type = dirFile
    · exact ⟨entry, rfl, htype⟩
    · rw [if_neg htype] at hopen
      injection hopen with hopen
      exact absurd (congrArg Prod.fst hopen) hne

/-- Where it succeeds, the directory is sound. -/
theorem goodDir_of_dirOpen (hN : fs.numDentries.toNat ≤ 31) {fname : ℕ → Byte} {fd fd' : Fd}
    {dir dir' : DirState} (hopen : dirOpen fs img fd fname dir = some (0, fd', dir')) :
    fs.GoodDir img where
  count := hN
  terminated k hk := by
    obtain ⟨entry, hlookup, htype⟩ := lookup_of_dirOpen hopen
    rw [dirOpen, hlookup] at hopen
    dsimp only at hopen
    rw [if_pos htype] at hopen
    obtain ⟨dir₁, hloop, -⟩ := Option.map_eq_some_iff.mp hopen
    exact ends_of_dirOpenLoop (fsBaseAdr_ne_zero_of_lookup hlookup) (Nat.zero_add _) hloop
      (Nat.zero_le k) hk

/-- **What a successful `dir_open` leaves**: the listing, and a descriptor at its start. -/
theorem lists_of_dirOpen (hN : fs.numDentries.toNat ≤ 31) {fname : ℕ → Byte} {fd fd' : Fd}
    {dir dir' : DirState} (hopen : dirOpen fs img fd fname dir = some (0, fd', dir')) :
    fd' = openedDir 0 ∧ dir'.Lists fs img fs.numDentries.toNat := by
  obtain ⟨entry, hlookup, htype⟩ := lookup_of_dirOpen hopen
  obtain ⟨dir₁, hopen₁, hdir⟩ := dirOpen_eq hlookup htype (goodDir_of_dirOpen hN hopen) fd dir
  rw [hopen] at hopen₁
  obtain ⟨rfl, rfl⟩ := Prod.mk.inj (Prod.mk.inj (Option.some.inj hopen₁)).2
  exact ⟨rfl, hdir⟩

/-! ## `dir_read` -/

/-- The copy loop from `i` on: it copies up to the end of the request or of the listing,
whichever comes first. -/
theorem dirReadLoop_eq {dir : DirState} {filePos buf : Word} {fuel i : ℕ} {mem : Memory}
    (hlt : filePos.toNat + i < dir.dirLength.toNat) (hfuel : i + fuel < 2 ^ 32) :
    let n := i + min fuel (dir.dirLength.toNat - (filePos.toNat + i))
    dirReadLoop dir filePos buf fuel i false mem
      = (n, decide (dir.dirLength.toNat ≤ filePos.toNat + n),
          mem.patch buf i n fun j => dir.dirBuf (filePos.toNat + j)) := by
  induction fuel generalizing i mem with
  | zero =>
    have hnot : ¬ dir.dirLength.toNat ≤ filePos.toNat + i := by omega
    simp [dirReadLoop, hnot]
  | succ fuel ih =>
    intro n
    have hlen := dir.dirLength.isLt
    have hpos : (filePos + BitVec.ofNat 32 i).toNat = filePos.toNat + i := by bv_omega
    have hn : i < n := by omega
    rw [dirReadLoop, if_neg Bool.false_ne_true]
    dsimp only
    rw [hpos, ← Memory.patch_store8 mem buf (fun j => dir.dirBuf (filePos.toNat + j)) hn (by omega)]
    by_cases hend : dir.dirLength.toNat ≤ filePos.toNat + i + 1
    -- the byte just copied was the last of the listing: the loop stops at the flag
    · have hn1 : n = i + 1 := by omega
      have heof : decide (dir.dirLength ≤ filePos + BitVec.ofNat 32 i + 1) = true :=
        decide_eq_true (by bv_omega)
      have heof' : decide (dir.dirLength.toNat ≤ filePos.toNat + n) = true :=
        decide_eq_true (by omega)
      rw [heof, heof', hn1, Memory.patch_self]
      cases fuel <;> simp [dirReadLoop]
    · have heof : decide (dir.dirLength ≤ filePos + BitVec.ofNat 32 i + 1) = false :=
        decide_eq_false (by bv_omega)
      rw [heof, ih (by omega) (by omega)]
      rw [show i + 1 + min fuel (dir.dirLength.toNat - (filePos.toNat + (i + 1))) = n by omega]

/-- The copy loop as `dir_read` starts it, short of the end of the listing. -/
theorem dirReadLoop_openedDir {dir : DirState} {pos : ℕ} (hlt : pos < dir.dirLength.toNat)
    (buf nbytes : Word) (mem : Memory) :
    let n := min nbytes.toNat (dir.dirLength.toNat - pos)
    dirReadLoop dir (openedDir pos).filePos buf nbytes.toNat 0
        (decide (dir.dirLength ≤ (openedDir pos).filePos)) mem
      = (n, decide (dir.dirLength.toNat ≤ pos + n),
          mem.patch buf 0 n fun j => dir.dirBuf (pos + j)) := by
  intro n
  have hlen := dir.dirLength.isLt
  have hpos : (openedDir pos).filePos.toNat = pos := by
    rw [openedDir, BitVec.toNat_ofNat, Nat.mod_eq_of_lt (by omega)]
  have hstart : decide (dir.dirLength ≤ (openedDir pos).filePos) = false :=
    decide_eq_false (by bv_omega)
  rw [hstart, dirReadLoop_eq (by omega) (by omega)]
  simp only [hpos, Nat.add_zero, Nat.zero_add]
  rfl

/-- **`dir_read` short of the end** is a read of the listing. -/
theorem dirRead_of_lt {dir : DirState} {pos : ℕ} {buf nbytes : Word}
    (h : pos + nbytes.toNat < dir.dirLength.toNat) (mem : Memory) :
    dirRead (openedDir pos) dir mem buf nbytes
      = (nbytes, openedDir (pos + nbytes.toNat),
          mem.patch buf 0 nbytes.toNat fun j => dir.dirBuf (pos + j)) := by
  have hmin : min nbytes.toNat (dir.dirLength.toNat - pos) = nbytes.toNat := by omega
  rw [dirRead, dirReadLoop_openedDir (by omega), hmin]
  dsimp only
  rw [if_neg (by rw [decide_eq_true_eq]; omega), openedDir, openedDir, BitVec.ofNat_add,
    BitVec.ofNat_toNat, BitVec.setWidth_eq]

/-- **`dir_read` to the end** returns 0, whatever it copied. -/
theorem dirRead_of_le {dir : DirState} {pos : ℕ} {buf nbytes : Word}
    (hlt : pos < dir.dirLength.toNat) (h : dir.dirLength.toNat ≤ pos + nbytes.toNat)
    (mem : Memory) :
    dirRead (openedDir pos) dir mem buf nbytes
      = (0, openedDir dir.dirLength.toNat,
          mem.patch buf 0 (dir.dirLength.toNat - pos) fun j => dir.dirBuf (pos + j)) := by
  have hmin : min nbytes.toNat (dir.dirLength.toNat - pos) = dir.dirLength.toNat - pos := by omega
  rw [dirRead, dirReadLoop_openedDir hlt, hmin]
  dsimp only
  rw [if_pos (by rw [decide_eq_true_eq]; omega), openedDir, openedDir, BitVec.ofNat_toNat,
    BitVec.setWidth_eq]

/-! ## A list of reads -/

/-- `dir_read` calls one after the other: the value each returns with the bytes it returned,
and the descriptor and memory after them. -/
def dirReads (dir : DirState) : Fd → Memory → List ReadRequest →
    List (Word × List Byte) × Fd × Memory
  | fd, mem, [] => ([], fd, mem)
  | fd, mem, r :: rs =>
    let (ret, fd, mem) := dirRead fd dir mem r.buf r.nbytes
    let (results, fd', mem') := dirReads dir fd mem rs
    ((ret, mem.bytes r.buf ret.toNat) :: results, fd', mem')

variable {dir : DirState} {N : ℕ}

/-- What a call short of the end puts in the buffer is the next piece of the listing. -/
theorem bytes_patch_dirBuf (hdir : dir.Lists fs img fs.numDentries.toNat) {pos n : ℕ}
    (hle : pos + n ≤ dir.dirLength.toNat) (buf : Word) (mem : Memory) :
    (mem.patch buf 0 n fun j => dir.dirBuf (pos + j)).bytes buf n
      = Cursor.read (fs.listing img) pos n := by
  have hlen := dir.dirLength.isLt
  have hlists := hdir.length
  rw [Memory.bytes_patch le_rfl (by omega)]
  refine List.ext_getElem ?_ fun j h1 h2 => ?_
  · rw [List.length_map, List.length_range, Cursor.length_read, Fs.length_listing]
    omega
  · rw [List.length_map, List.length_range] at h1
    simp only [List.getElem_map, List.getElem_range, Cursor.read, List.getElem_take,
      List.getElem_drop, Fs.listing]
    exact hdir.names (pos + j) (by omega)

/-- The calls return what cursor reads of the listing would as long as they ask for less than
is left, and from the call that reaches the end on they do not. -/
theorem dirReads_openedDir_iff (hdir : dir.Lists fs img fs.numDentries.toNat)
    (reqs : List ReadRequest) (hnz : ∀ r ∈ reqs, r.nbytes ≠ 0) {pos : ℕ}
    (hpos : pos < fnameSize * fs.numDentries.toNat) (mem : Memory) :
    (dirReads dir (openedDir pos) mem reqs).1
        = (Cursor.reads (fs.listing img) pos (reqs.map fun r => r.nbytes.toNat)).map asResult ↔
      pos + (reqs.map fun r => r.nbytes.toNat).sum < fnameSize * fs.numDentries.toNat := by
  have hlen := hdir.length
  induction reqs generalizing pos mem with
  | nil => simpa [dirReads, Cursor.reads] using hpos
  | cons r rs ih =>
    have hr : 0 < r.nbytes.toNat := by
      have := hnz r List.mem_cons_self
      bv_omega
    rw [List.map_cons, List.sum_cons, Cursor.reads, List.map_cons, dirReads]
    rcases Nat.lt_or_ge (pos + r.nbytes.toNat) dir.dirLength.toNat with hlt | hge
    · -- a call short of the end: the same piece, and the same question for the rest
      have hpiece : (Cursor.read (fs.listing img) pos r.nbytes.toNat).length = r.nbytes.toNat := by
        rw [Cursor.length_read, Fs.length_listing]
        omega
      have hrest := ih (fun r hr => hnz r (List.mem_cons_of_mem _ hr))
        (show pos + r.nbytes.toNat < fnameSize * fs.numDentries.toNat by omega)
      rw [dirRead_of_lt hlt]
      dsimp only
      rw [bytes_patch_dirBuf hdir (Nat.le_of_lt hlt), List.cons.injEq, hpiece, asResult, hpiece,
        BitVec.ofNat_toNat, BitVec.setWidth_eq, and_iff_right rfl,
        ← Nat.add_assoc]
      exact hrest _
    · -- the call that reaches the end returns 0 for bytes that are still to come
      rw [dirRead_of_le (by omega) hge]
      refine ⟨fun h => ?_, fun h => by omega⟩
      have hret := congrArg BitVec.toNat (congrArg Prod.fst (List.cons.inj h).1)
      have hsize := r.nbytes.isLt
      have hlen' := dir.dirLength.isLt
      rw [asResult, Cursor.length_read, Fs.length_listing, BitVec.toNat_ofNat,
        Nat.mod_eq_of_lt (by omega)] at hret
      change 0 = _ at hret
      omega

/-- **When a directory is read like a file.** After a `dir_open` that succeeds, in an image with at
most 31 entries, the `dir_read` calls of a list of nonempty requests return the next bytes of the
listing, each call the number it copied and 0 only at the end, if and only if the requests together
ask for fewer bytes than the listing has. -/
theorem dirReads_of_dirOpen_iff (hN : fs.numDentries.toNat ≤ 31) {fname : ℕ → Byte} {fd₀ fd : Fd}
    {dir₀ dir : DirState} (hopen : dirOpen fs img fd₀ fname dir₀ = some (0, fd, dir))
    (mem : Memory) (reqs : List ReadRequest) (hnz : ∀ r ∈ reqs, r.nbytes ≠ 0) :
    (dirReads dir fd mem reqs).1
        = (Cursor.reads (fs.listing img) 0 (reqs.map fun r => r.nbytes.toNat)).map asResult ↔
      (reqs.map fun r => r.nbytes.toNat).sum < fnameSize * fs.numDentries.toNat := by
  obtain ⟨rfl, hdir⟩ := lists_of_dirOpen hN hopen
  obtain ⟨entry, hlookup, -⟩ := lookup_of_dirOpen hopen
  have hpos : 0 < fnameSize * fs.numDentries.toNat :=
    Nat.mul_pos (by decide) (numDentries_pos_of_lookup hlookup)
  rw [dirReads_openedDir_iff hdir reqs hnz hpos, Nat.zero_add]

/-! ## `ls` -/

/-- The loop of `ls` over at most `fuel` reads of 32 bytes into its buffer: the lines it writes
to the terminal. -/
def lsLoop (dir : DirState) (buf : Word) : ℕ → Fd → Memory → Option (List (List Byte))
  | 0, _, _ => none
  | fuel + 1, fd, mem =>
    let (cnt, fd, mem) := dirRead fd dir mem buf 32
    if cnt = 0 then some []
    else if cnt = error then some []
    else
      let mem := mem.store8 (buf + cnt) (chr '\n')
      (lsLoop dir buf fuel fd mem).map (mem.bytes buf (cnt.toNat + 1) :: ·)

/-- The line of an entry. -/
def Fs.nameLine (fs : Fs) (img : Memory) (k : ℕ) : List Byte :=
  Cursor.read (fs.listing img) (fnameSize * k) fnameSize ++ [chr '\n']

/-- **`ls` prints every name but the last**: from entry `k` on, the next `d` of the `d + 1` that
are left. -/
theorem lsLoop_eq (hdir : dir.Lists fs img fs.numDentries.toNat) (buf : Word) {d k fuel : ℕ}
    (hk : k + d + 1 = fs.numDentries.toNat) (hfuel : d < fuel) (mem : Memory) :
    lsLoop dir buf fuel (openedDir (fnameSize * k)) mem
      = some ((List.range' k d).map (fs.nameLine img)) := by
  have hlen : dir.dirLength.toNat = 32 * (k + d + 1) := hk ▸ hdir.length
  have h32 : (32 : Word).toNat = 32 := rfl
  induction d generalizing k fuel mem with
  | zero =>
    -- the last name: the read that copies it returns 0
    obtain ⟨fuel, rfl⟩ : ∃ f, fuel = f + 1 := ⟨fuel - 1, by omega⟩
    rw [lsLoop, dirRead_of_le (by simp only [fnameSize]; omega) (by simp only [fnameSize]; omega)]
    rfl
  | succ d ih =>
    obtain ⟨fuel, rfl⟩ : ∃ f, fuel = f + 1 := ⟨fuel - 1, by omega⟩
    have hlt : fnameSize * k + (32 : Word).toNat < dir.dirLength.toNat := by
      simp only [fnameSize]
      omega
    have hrest := ih (k := k + 1) (by omega) (show d < fuel by omega)
      ((mem.patch buf 0 32 fun j => dir.dirBuf (fnameSize * k + j)).store8 (buf + 32) (chr '\n'))
      (by omega)
    have hline := Memory.bytes_store8 (n := 32) (by decide)
      (mem.patch buf 0 32 fun j => dir.dirBuf (fnameSize * k + j)) buf (chr '\n')
    rw [bytes_patch_dirBuf hdir
      (show fnameSize * k + 32 ≤ dir.dirLength.toNat from Nat.le_of_lt hlt)] at hline
    rw [lsLoop, dirRead_of_lt hlt]
    dsimp only
    rw [if_neg (by decide), if_neg (by decide), h32,
      show fnameSize * k + 32 = fnameSize * (k + 1) from rfl, hrest]
    exact congrArg (fun line => some (line :: _)) hline

/-! ## The sample image -/

theorem sampleImage_goodDir : (fsInit sampleImage sampleBase).GoodDir sampleImage where
  count := by decide
  terminated k hk := by
    have hnum : (fsInit sampleImage sampleBase).numDentries.toNat = 3 := by decide
    refine ⟨5, by decide, ?_⟩
    have hall : ∀ k < 3, sampleImage.view ((fsInit sampleImage sampleBase).dentryAddr k) 5 = 0 := by
      decide
    exact hall k (hnum ▸ hk)

/-- The lookup of the directory in the sample image. -/
theorem readDentryByName_sample_dir :
    readDentryByName (fsInit sampleImage sampleBase) sampleImage (cstr (str ['.'])) Dentry.uninit
      = some (copyDentry (fsInit sampleImage sampleBase) sampleImage 0
          (strncpy Dentry.uninit.fname
            (sampleImage.view ((fsInit sampleImage sampleBase).dentryAddr 0)) fnameSize)) := by
  have hnum : (fsInit sampleImage sampleBase).numDentries.toNat = 3 := by decide
  rw [readDentryByName, if_neg (by decide), hnum, readDentryByNameLoop,
    if_pos (by decide)]

/-- One read of 32 bytes into a program's buffer. -/
def sampleRequest : ReadRequest := ⟨execAddr, 32, by decide⟩

/-- Two reads of 32 bytes return the first two of the three names. -/
theorem dirReads_of_dirOpen_iff_sample :
    ∃ fd dir, dirOpen (fsInit sampleImage sampleBase) sampleImage Fd.closed (cstr (str ['.']))
        ⟨fun _ => 0, 0⟩ = some (0, fd, dir) ∧
      (dirReads dir fd (fun _ => 0) [sampleRequest, sampleRequest]).1
        = (Cursor.reads ((fsInit sampleImage sampleBase).listing sampleImage) 0 [32, 32]).map
            asResult := by
  obtain ⟨dir, hopen, -⟩ := dirOpen_eq readDentryByName_sample_dir (by decide)
    sampleImage_goodDir Fd.closed ⟨fun _ => 0, 0⟩
  exact ⟨openedDir 0, dir, hopen, (dirReads_of_dirOpen_iff sampleImage_goodDir.count hopen
    (fun _ => 0) [sampleRequest, sampleRequest] (by decide)).mpr (by decide)⟩

/-- A third read does not return the third name, and `ls` prints two lines for the three
entries. -/
theorem dirReads_sample_incomplete :
    ∃ fd dir, dirOpen (fsInit sampleImage sampleBase) sampleImage Fd.closed (cstr (str ['.']))
        ⟨fun _ => 0, 0⟩ = some (0, fd, dir) ∧
      (dirReads dir fd (fun _ => 0) [sampleRequest, sampleRequest, sampleRequest]).1
        ≠ (Cursor.reads ((fsInit sampleImage sampleBase).listing sampleImage) 0 [32, 32, 32]).map
            asResult ∧
      lsLoop dir execAddr 3 fd (fun _ => 0)
        = some [(fsInit sampleImage sampleBase).nameLine sampleImage 0,
            (fsInit sampleImage sampleBase).nameLine sampleImage 1] := by
  obtain ⟨dir, hopen, hdir⟩ := dirOpen_eq readDentryByName_sample_dir (by decide)
    sampleImage_goodDir Fd.closed ⟨fun _ => 0, 0⟩
  refine ⟨openedDir 0, dir, hopen, fun h => ?_, ?_⟩
  · have hlt := (dirReads_openedDir_iff hdir [sampleRequest, sampleRequest, sampleRequest]
      (by decide) (by decide) (fun _ => 0)).mp h
    revert hlt
    decide
  · exact lsLoop_eq (k := 0) (d := 2) hdir execAddr (by decide) (by decide) _

end HieUnix
