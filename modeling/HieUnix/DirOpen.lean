import HieUnix.Lookup

/-!
# What `dir_open` writes

`dir_buf` has room for 62 names of 32 bytes. The fill loop puts the names into the first
`32 * (i + 1)` bytes, but the zero bytes it writes behind a short name start at
`dir_length + 32 + strlen(dir_buf)` and end at twice the length of the listing: they run ahead of
the names, over bytes that the next turns write again, and leave `dir_buf` from the 32nd entry on
(`writesInside_dirOpen_iff`). Up to 31 entries the listing is right, whatever was in `dir_buf`
before (`dirOpen_listing`).
-/

namespace HieUnix

variable {fs : Fs} {img : Memory} {fname : ℕ → Byte} {dir dir' : DirState} {i j k : ℕ}

/-! ## Names in the listing -/

/-- A name of the listing is the name of the entry, and zero bytes behind it. -/
theorem paddedName_eq_cstr (hj : j < fnameSize) :
    fs.paddedName img k j = cstr (fs.entryName img k) j := by
  rw [Fs.paddedName]
  split
  · rename_i hnz
    exact eq_cstr_fieldName hj fun l hl => hnz l (by omega)
  · rename_i hz
    -- the name ended at or before `j`
    symm
    apply cstr_of_length_le
    by_contra hlt
    apply hz
    intro l hl
    rw [Fs.entryName, length_fieldName] at hlt
    have hl' : l < strlen (img.view (fs.dentryAddr k)) fnameSize := by omega
    exact ne_zero_of_lt_strlenLoop (Nat.zero_le l) hl'

/-- A byte of the listing is zero when the name is shorter. -/
theorem paddedName_eq_zero_iff (hj : j < fnameSize) :
    fs.paddedName img k j = 0 ↔ (fs.entryName img k).length ≤ j := by
  rw [paddedName_eq_cstr hj]
  constructor
  · intro hz
    by_contra hlt
    exact cstr_ne_zero (not_mem_fieldName _) (Nat.lt_of_not_le hlt) hz
  · exact cstr_of_length_le

/-- `strlen(dir_buf)` ends within the names when one of them is short. -/
theorem strlen_named_lt_iff (hdir : dir.Lists fs img i) (hi : i < 62)
    (hname : ∀ j, (∀ l < j, img.view (fs.dentryAddr i) l ≠ 0) →
      fname j = img.view (fs.dentryAddr i) j) :
    strlen (dir.named fname) maxBufSize < fnameSize * (i + 1) ↔
      ∃ k ≤ i, (fs.entryName img k).length ≠ fnameSize := by
  have hroom : fnameSize * (i + 1) ≤ maxBufSize := by
    show 32 * (i + 1) ≤ 62 * 32
    omega
  constructor
  · intro hlt
    have hzero : dir.named fname (strlen (dir.named fname) maxBufSize) = 0 := by
      apply eq_zero_of_strlenLoop_lt
      rw [Nat.zero_add]
      exact Nat.lt_of_lt_of_le hlt hroom
    have hmod : strlen (dir.named fname) maxBufSize % fnameSize < fnameSize :=
      Nat.mod_lt _ (by decide)
    rw [hdir.named hname hlt, paddedName_eq_zero_iff hmod] at hzero
    refine ⟨strlen (dir.named fname) maxBufSize / fnameSize, ?_, by omega⟩
    exact Nat.le_of_lt_succ (Nat.div_lt_of_lt_mul hlt)
  · rintro ⟨k, hk, hshort⟩
    have hle : (fs.entryName img k).length ≤ 32 := length_fieldName_le _
    have hlength : (fs.entryName img k).length < 32 := Nat.lt_of_le_of_ne hle hshort
    -- the byte behind the short name is zero
    have hp : 32 * k + (fs.entryName img k).length < fnameSize * (i + 1) := by
      show _ < 32 * (i + 1)
      omega
    have hdiv : (32 * k + (fs.entryName img k).length) / fnameSize = k := by
      show _ / 32 = k
      omega
    have hmod : (32 * k + (fs.entryName img k).length) % fnameSize
        = (fs.entryName img k).length := by
      show _ % 32 = _
      omega
    have hzero := hdir.named hname hp
    rw [hdiv, hmod, (paddedName_eq_zero_iff hlength).mpr (Nat.le_refl _)] at hzero
    apply Nat.lt_of_le_of_lt _ hp
    by_contra hlt
    exact ne_zero_of_lt_strlenLoop (Nat.zero_le _) (Nat.lt_of_not_le hlt) hzero

/-! ## The bytes that are written -/

/-- The indices of `dir_buf` that turn `i` of the fill loop writes: those of the name, and those
of the zero bytes behind it. -/
def DirState.written (dir : DirState) (i : ℕ) (fname : ℕ → Byte) : List ℕ :=
  let zeroFrom := dir.dirLength.toNat + fnameSize + strlen (dir.named fname) maxBufSize
  let zeroTo := dir.dirLength.toNat + fnameSize + (i + 1) * fnameSize
  List.range' dir.dirLength.toNat fnameSize ++ List.range' zeroFrom (zeroTo - zeroFrom)

/-- The fill loop of `dir_open`, with the indices of `dir_buf` it writes. -/
def dirOpenLoopW (fs : Fs) (img : Memory) : ℕ → ℕ → Dentry → DirState → List ℕ × Option DirState
  | 0, _, _, dir => ([], some dir)
  | fuel + 1, i, dEntry, dir =>
    match readDentryByIndex fs img i dEntry with
    | none => ([], none)
    | some (ret, dEntry) =>
      if ret = 0 then
        let rest := dirOpenLoopW fs img fuel (i + 1) dEntry (dir.addName i dEntry.fname)
        (dir.written i dEntry.fname ++ rest.1, rest.2)
      else dirOpenLoopW fs img fuel (i + 1) dEntry dir

/-- `dir_open`, with the indices of `dir_buf` it writes. -/
def dirOpenW (fs : Fs) (img : Memory) (fd : Fd) (fname : ℕ → Byte) (dir : DirState) :
    List ℕ × Option (Word × Fd × DirState) :=
  match readDentryByName fs img fname Dentry.uninit with
  | none => ([], some (error, fd, dir))
  | some entry =>
    if entry.type = dirFile then
      let filled := dirOpenLoopW fs img fs.numDentries.toNat 0 entry { dir with dirLength := 0 }
      (filled.1, filled.2.map fun dir =>
        (0, { fopsP := some .dirFops, inodeP := 0, filePos := 0, flags := 1 }, dir))
    else ([], some (error, fd, dir))

theorem dirOpenLoopW_snd (fs : Fs) (img : Memory) (fuel i : ℕ) (dEntry : Dentry) (dir : DirState) :
    (dirOpenLoopW fs img fuel i dEntry dir).2 = dirOpenLoop fs img fuel i dEntry dir := by
  induction fuel generalizing i dEntry dir with
  | zero => rfl
  | succ fuel ih =>
    rw [dirOpenLoopW, dirOpenLoop]
    cases readDentryByIndex fs img i dEntry with
    | none => rfl
    | some r =>
      dsimp only
      by_cases hret : r.1 = 0
      · rw [if_pos hret, if_pos hret]
        exact ih (i + 1) r.2 (dir.addName i r.2.fname)
      · rw [if_neg hret, if_neg hret]
        exact ih (i + 1) r.2 dir

/-- The record changes nothing. -/
theorem dirOpenW_snd (fs : Fs) (img : Memory) (fd : Fd) (fname : ℕ → Byte) (dir : DirState) :
    (dirOpenW fs img fd fname dir).2 = dirOpen fs img fd fname dir := by
  rw [dirOpenW, dirOpen]
  cases readDentryByName fs img fname Dentry.uninit with
  | none => rfl
  | some entry =>
    dsimp only
    by_cases htype : entry.type = dirFile
    · rw [if_pos htype, if_pos htype, dirOpenLoopW_snd]
    · rw [if_neg htype, if_neg htype]

/-- A turn writes within `dir_buf` up to the 31st entry, and after it as long as it writes nothing
behind the names. -/
theorem written_lt_iff (hdir : dir.Lists fs img i) (hi : i < 62)
    (hname : ∀ j, (∀ l < j, img.view (fs.dentryAddr i) l ≠ 0) →
      fname j = img.view (fs.dentryAddr i) j) :
    (∀ p ∈ dir.written i fname, p < maxBufSize) ↔
      (31 ≤ i → ∀ k ≤ i, (fs.entryName img k).length = fnameSize) := by
  have hlen : dir.dirLength.toNat = 32 * i := hdir.length
  have hshort := strlen_named_lt_iff hdir hi hname
  change strlen (dir.named fname) maxBufSize < 32 * (i + 1) ↔ _ at hshort
  simp only [DirState.written, List.mem_append, List.mem_range'_1, hlen]
  show (∀ p, (32 * i ≤ p ∧ p < 32 * i + 32) ∨
    (32 * i + 32 + strlen (dir.named fname) maxBufSize ≤ p ∧
      p < 32 * i + 32 + strlen (dir.named fname) maxBufSize + (32 * i + 32 + (i + 1) * 32 -
        (32 * i + 32 + strlen (dir.named fname) maxBufSize))) → p < 62 * 32) ↔ _
  constructor
  · intro hwritten h31 k hk
    by_contra hne
    -- the last zero byte is the last one of twice the listing
    have hlt := hshort.mpr ⟨k, hk, hne⟩
    have hlast := hwritten (64 * (i + 1) - 1) (.inr (by omega))
    omega
  · intro hnames p hp
    by_cases h31 : i < 31
    · omega
    · have hfull : ¬ strlen (dir.named fname) maxBufSize < 32 * (i + 1) := by
        intro hlt
        obtain ⟨k, hk, hne⟩ := hshort.mp hlt
        exact hne (hnames (by omega) k hk)
      omega

/-- The turns from `i` on that the loop gets to find no short name from the 32nd entry on. -/
def Fs.FillsInside (fs : Fs) (img : Memory) (i : ℕ) : Prop :=
  ∀ l, i ≤ l → 31 ≤ l → l < fs.numDentries.toNat → (∀ k, i ≤ k → k ≤ l → fs.Ends img k) →
    ∀ k ≤ l, (fs.entryName img k).length = fnameSize

/-- The first of the turns, and the rest of them. -/
theorem fillsInside_iff_succ (hi : i < fs.numDentries.toNat) (hends : fs.Ends img i) :
    fs.FillsInside img i ↔
      (31 ≤ i → ∀ k ≤ i, (fs.entryName img k).length = fnameSize) ∧ fs.FillsInside img (i + 1) := by
  constructor
  · intro h
    constructor
    · intro h31
      refine h i (Nat.le_refl i) h31 hi ?_
      intro k h1 h2
      rwa [Nat.le_antisymm h2 h1]
    · intro l h1 h31 h2 hall
      refine h l (by omega) h31 h2 ?_
      intro k hk1 hk2
      rcases Nat.eq_or_lt_of_le hk1 with rfl | hlt
      · exact hends
      · exact hall k hlt hk2
  · rintro ⟨hfirst, hrest⟩ l h1 h31 h2 hall
    rcases Nat.eq_or_lt_of_le h1 with rfl | hlt
    · exact hfirst h31
    · exact hrest l hlt h31 h2 fun k hk => hall k (by omega)

/-- The fill loop writes within `dir_buf` when its turns do. -/
theorem dirOpenLoopW_lt_iff (hbase : fs.fsBaseAdr ≠ 0) (hN : fs.numDentries.toNat ≤ 62)
    {fuel : ℕ} (hn : i + fuel = fs.numDentries.toNat) (dEntry : Dentry)
    (hdir : dir.Lists fs img i) :
    (∀ p ∈ (dirOpenLoopW fs img fuel i dEntry dir).1, p < maxBufSize) ↔
      fs.FillsInside img i := by
  induction fuel generalizing i dEntry dir with
  | zero =>
    refine iff_of_true (fun p hp => absurd hp List.not_mem_nil) ?_
    intro l h1 _ h2
    omega
  | succ fuel ih =>
    rw [dirOpenLoopW]
    by_cases hends : fs.Ends img i
    · obtain ⟨name, hread, hname⟩ :=
        readDentryByIndex_eq hbase (k := i) (by omega) hends dEntry
      have hnext : (dir.addName i (copyDentry fs img i name).fname).Lists fs img (i + 1) :=
        hdir.addName (by simp only [fnameSize]; omega) hname
      rw [hread]
      dsimp only
      rw [if_pos rfl]
      dsimp only
      rw [List.forall_mem_append, ih (by omega) _ hnext, fillsInside_iff_succ (by omega) hends]
      exact and_congr_left' (written_lt_iff hdir (by omega) hname)
    -- the copy of the name leaves the dentry, and no turn follows
    · rw [readDentryByIndex_eq_none hbase (by omega) hends]
      refine iff_of_true (fun p hp => absurd hp List.not_mem_nil) ?_
      intro l h1 _ _ hall
      exact absurd (hall i (Nat.le_refl i) h1) hends

/-- The name is that of a directory. -/
def Fs.IsDir (fs : Fs) (img : Memory) (fname : ℕ → Byte) : Prop :=
  ∃ entry, readDentryByName fs img fname Dentry.uninit = some entry ∧ entry.type = dirFile

theorem isDir_iff {s : List Byte} (hbase : fs.fsBaseAdr ≠ 0) (hs : IsString fname s) :
    fs.IsDir img fname ↔ ∃ k, fs.firstNamed img (s.take fnameSize) = some k ∧
      img.load32 (fs.dentryAddr k + 32) = dirFile := by
  rw [Fs.IsDir, readDentryByName_eq hbase hs]
  constructor
  · rintro ⟨entry, hlookup, htype⟩
    obtain ⟨k, hk, rfl⟩ := Option.map_eq_some_iff.mp hlookup
    exact ⟨k, hk, htype⟩
  · rintro ⟨k, hk, htype⟩
    rw [hk]
    exact ⟨_, rfl, htype⟩

/-- Every byte that `dir_open` writes through `dir_buf` is one of it. -/
def WritesInside (fs : Fs) (img : Memory) (fd : Fd) (fname : ℕ → Byte) (dir : DirState) : Prop :=
  ∀ p ∈ (dirOpenW fs img fd fname dir).1, p < maxBufSize

/-- What `dir_open` writes is what its fill loop writes. -/
theorem writesInside_iff_of_isDir (hN : fs.numDentries.toNat ≤ 62) (h : fs.IsDir img fname)
    (fd : Fd) (dir : DirState) : WritesInside fs img fd fname dir ↔ fs.FillsInside img 0 := by
  obtain ⟨entry, hlookup, htype⟩ := h
  have hbase := fsBaseAdr_ne_zero_of_lookup hlookup
  rw [WritesInside, dirOpenW, hlookup]
  dsimp only
  rw [if_pos htype]
  exact dirOpenLoopW_lt_iff hbase hN (Nat.zero_add _) entry ⟨rfl, fun p hp => by omega⟩

/-- **What `dir_open` writes** is within `dir_buf` if and only if the name is not that of a
directory, or the turns from the 32nd on that the loop gets to have found no short name. -/
theorem writesInside_dirOpen_iff (hN : fs.numDentries.toNat ≤ 62) (fd : Fd) (fname : ℕ → Byte)
    (dir : DirState) :
    WritesInside fs img fd fname dir ↔ (fs.IsDir img fname → fs.FillsInside img 0) := by
  by_cases hdir : fs.IsDir img fname
  · rw [writesInside_iff_of_isDir hN hdir, forall_prop_of_true hdir]
  · refine iff_of_true ?_ fun h => absurd h hdir
    intro p hp
    rw [dirOpenW] at hp
    cases hlookup : readDentryByName fs img fname Dentry.uninit with
    | none =>
      rw [hlookup] at hp
      exact absurd hp List.not_mem_nil
    | some entry =>
      rw [hlookup] at hp
      dsimp only at hp
      rw [if_neg fun htype => hdir ⟨entry, hlookup, htype⟩] at hp
      exact absurd hp List.not_mem_nil

/-- Opening the directory of the sample image writes within `dir_buf`. -/
theorem writesInside_dirOpen_iff_sample :
    WritesInside (fsInit sampleImage sampleBase) sampleImage Fd.closed (cstr (str ['.']))
      ⟨fun _ => 1, 0⟩ := by
  have hnum : (fsInit sampleImage sampleBase).numDentries.toNat = 3 := by decide
  refine (writesInside_dirOpen_iff (by omega) Fd.closed (cstr (str ['.'])) ⟨fun _ => 1, 0⟩).mpr ?_
  intro _ l _ h31 hl
  omega

/-- The nonzero bytes of an image with the directory and 31 files with names of one letter. -/
def crowdedBytes : List (ℕ × Byte) :=
  [(0, 32), (4, 1), (8, 1), (64, chr '.'), (96, 1)] ++
    (List.range 31).flatMap fun k =>
      [(64 * (k + 2), BitVec.ofNat 8 (65 + k)), (64 * (k + 2) + 32, 2)]

/-- Memory with that image in it. -/
def crowdedImage : Memory := fun a => (crowdedBytes.lookup (a - sampleBase).toNat).getD 0

/-- Opening the directory with 32 entries writes behind `dir_buf`. -/
theorem not_writesInside_crowdedImage :
    ¬ WritesInside (fsInit crowdedImage sampleBase) crowdedImage Fd.closed (cstr (str ['.']))
      ⟨fun _ => 0, 0⟩ := by
  have hnum : (fsInit crowdedImage sampleBase).numDentries.toNat = 32 := by decide
  have hisDir : (fsInit crowdedImage sampleBase).IsDir crowdedImage (cstr (str ['.'])) :=
    (isDir_iff (by decide) (isString_cstr (by decide))).mpr
      ⟨0, by decide, by decide⟩
  have hends : ∀ k < 32, (fsInit crowdedImage sampleBase).Ends crowdedImage k := by
    have hbyte : ∀ k < 32, crowdedImage.view
        ((fsInit crowdedImage sampleBase).dentryAddr k) 1 = 0 := by
      decide
    exact fun k hk => ⟨1, by decide, hbyte k hk⟩
  have hshort : ((fsInit crowdedImage sampleBase).entryName crowdedImage 0).length ≠ fnameSize := by
    decide
  intro h
  have hinside := (writesInside_iff_of_isDir (by omega) hisDir _ _).mp h
  exact hshort (hinside 31 (by decide) (by decide) (by omega) (fun k _ hk => hends k (by omega)) 0
    (by decide))

/-! ## The listing -/

/-- Types below 256 end the names. -/
theorem goodDir_of_type (hN : fs.numDentries.toNat ≤ 31)
    (htype : ∀ k < fs.numDentries.toNat, (img.load32 (fs.dentryAddr k + 32)).toNat < 256) :
    fs.GoodDir img where
  count := hN
  terminated k hk := by
    obtain ⟨z, hz, hzero⟩ := exists_terminator (htype k hk)
    exact ⟨z, Nat.lt_trans hz (by decide), hzero⟩

/-- The bytes of a name in the listing. -/
theorem DirState.Lists.dirBuf_eq (hdir : dir.Lists fs img i) (hk : k < i) (hj : j < fnameSize) :
    dir.dirBuf (fnameSize * k + j) = cstr (fs.entryName img k) j := by
  have hp : fnameSize * k + j < fnameSize * i := by simp only [fnameSize] at *; omega
  have hdiv : (fnameSize * k + j) / fnameSize = k := by simp only [fnameSize] at *; omega
  have hmod : (fnameSize * k + j) % fnameSize = j := by simp only [fnameSize] at *; omega
  rw [hdir.names _ hp, hdiv, hmod, paddedName_eq_cstr hj]

/-- **What `dir_open` builds**, whatever was in `dir_buf`: the names of the entries, 32 bytes each,
and the same ones when the directory is opened again. -/
theorem dirOpen_listing (hN : fs.numDentries.toNat ≤ 31)
    (htype : ∀ k < fs.numDentries.toNat, (img.load32 (fs.dentryAddr k + 32)).toNat < 256)
    {fd fd' : Fd} (hopen : dirOpen fs img fd fname dir = some (0, fd', dir')) :
    dir'.dirLength.toNat = 32 * fs.numDentries.toNat ∧
    (∀ k < fs.numDentries.toNat, ∀ j < 32,
      dir'.dirBuf (32 * k + j) = cstr (fs.entryName img k) j) ∧
    ∀ fd₂, ∃ fd₂' dir₂, dirOpen fs img fd₂ fname dir' = some (0, fd₂', dir₂) ∧
      dir₂.dirLength = dir'.dirLength ∧
      ∀ p < 32 * fs.numDentries.toNat, dir₂.dirBuf p = dir'.dirBuf p := by
  obtain ⟨entry, hlookup, hdirFile⟩ := lookup_of_dirOpen hopen
  have hgood := goodDir_of_type hN htype
  have hlists : ∀ fd dir, ∃ fd' dir', dirOpen fs img fd fname dir = some (0, fd', dir') ∧
      dir'.Lists fs img fs.numDentries.toNat := by
    intro fd dir
    obtain ⟨dir', hdir'⟩ := dirOpen_eq hlookup hdirFile hgood fd dir
    exact ⟨openedDir 0, dir', hdir'⟩
  obtain ⟨fd₁, dir₁, hopen₁, hdir⟩ := hlists fd dir
  obtain rfl : dir₁ = dir' := by
    rw [hopen] at hopen₁
    injection hopen₁ with heq
    exact (congrArg (fun r => r.2.2) heq).symm
  refine ⟨hdir.length, fun k hk j hj => hdir.dirBuf_eq hk hj, ?_⟩
  intro fd₂
  obtain ⟨fd₂', dir₂, hopen₂, hdir₂⟩ := hlists fd₂ dir₁
  refine ⟨fd₂', dir₂, hopen₂, ?_, ?_⟩
  · exact BitVec.eq_of_toNat_eq (hdir₂.length.trans hdir.length.symm)
  · intro p hp
    rw [hdir₂.names p hp, hdir.names p hp]

/-- Opening the directory of the sample image over a buffer of ones. -/
theorem dirOpen_listing_sample :
    ∃ fd dir, dirOpen (fsInit sampleImage sampleBase) sampleImage Fd.closed (cstr (str ['.']))
        ⟨fun _ => 1, 0⟩ = some (0, fd, dir) ∧
      dir.dirLength.toNat = 96 ∧ dir.dirBuf 32 = chr 'r' ∧ dir.dirBuf 35 = 0 := by
  have hnum : (fsInit sampleImage sampleBase).numDentries.toNat = 3 := by decide
  have htype : ∀ k < (fsInit sampleImage sampleBase).numDentries.toNat, (sampleImage.load32
      ((fsInit sampleImage sampleBase).dentryAddr k + 32)).toNat < 256 := by
    rw [hnum]
    decide
  obtain ⟨dir, hopen, -⟩ := dirOpen_eq readDentryByName_sample_dir (by decide)
    sampleImage_goodDir Fd.closed ⟨fun _ => 1, 0⟩
  obtain ⟨hlen, hnames, -⟩ := dirOpen_listing (by omega) htype hopen
  refine ⟨openedDir 0, dir, hopen, hlen.trans (by rw [hnum]), ?_, ?_⟩
  · rw [hnames 1 (by omega) 0 (by omega)]
    decide
  · rw [hnames 1 (by omega) 3 (by omega)]
    decide

end HieUnix
