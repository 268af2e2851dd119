import HieUnix.Directory

/-!
# Looking up a name

The two lookups, with the dentry at an address: `read_dentry_by_name` compares at most 32 bytes, so
it finds the first entry whose name is that of the string, cut to 32 bytes (`readDentryByName_eq`).
A longer string should not be found, and is when its first 32 bytes are a name of that length
(`lookupExact_iff`). For the name of an entry that is stored once the two lookups fill in the same
dentry (`lookups_agree`).
-/

namespace HieUnix

variable {fs : Fs} {img mem : Memory} {f g fname : ℕ → Byte} {s : List Byte} {i j : ℕ} {p : Word}

/-! ## Names -/

/-- The name in a field of 32 bytes: it ends at the first zero byte, or with the field. -/
def fieldName (f : ℕ → Byte) : List Byte := (List.range (strlen f fnameSize)).map f

@[simp] theorem length_fieldName (f : ℕ → Byte) : (fieldName f).length = strlen f fnameSize := by
  rw [fieldName, List.length_map, List.length_range]

theorem not_mem_fieldName (f : ℕ → Byte) : (0 : Byte) ∉ fieldName f := by
  intro h
  obtain ⟨j, hj, hz⟩ := List.mem_map.mp h
  exact ne_zero_of_lt_strlenLoop (Nat.zero_le j) (List.mem_range.mp hj) hz

theorem length_fieldName_le (f : ℕ → Byte) : (fieldName f).length ≤ fnameSize := by
  rw [length_fieldName]
  exact strlen_le f fnameSize

/-- A field holds a name when it agrees with it up to the first zero byte. -/
theorem fieldName_eq_iff (h0 : (0 : Byte) ∉ s) (hs : s.length ≤ fnameSize) :
    fieldName f = s ↔ ∀ j < fnameSize, (∀ k < j, f k ≠ 0) → f j = cstr s j := by
  have hlen := strlen_le f fnameSize
  have hnz : ∀ k < strlen f fnameSize, f k ≠ 0 := fun k hk =>
    ne_zero_of_lt_strlenLoop (Nat.zero_le k) hk
  have hend : strlen f fnameSize < fnameSize → f (strlen f fnameSize) = 0 := fun h =>
    eq_zero_of_strlenLoop_lt (by rwa [Nat.zero_add])
  constructor
  · rintro rfl j hj hbefore
    rcases Nat.lt_trichotomy j (strlen f fnameSize) with hlt | rfl | hgt
    · rw [cstr_eq_getElem (by rwa [length_fieldName])]
      simp only [fieldName, List.getElem_map, List.getElem_range]
    · rw [cstr_of_length_le (by rw [length_fieldName]), hend hj]
    · exact absurd (hend (by omega)) (hbefore _ hgt)
  · intro h
    have hlength : strlen f fnameSize = s.length := by
      rcases Nat.lt_trichotomy (strlen f fnameSize) s.length with hlt | heq | hgt
      -- the name ends where the string goes on
      · have hz := h _ (by omega) hnz
        rw [hend (by omega)] at hz
        exact absurd hz.symm (cstr_ne_zero h0 hlt)
      · exact heq
      · have hz := h s.length (by omega) fun k hk => hnz k (by omega)
        rw [cstr_of_length_le (Nat.le_refl _)] at hz
        exact absurd hz (hnz _ hgt)
    refine List.ext_getElem (by rw [length_fieldName, hlength]) fun j h1 h2 => ?_
    rw [← cstr_eq_getElem h2, ← h j (by omega) fun k hk => hnz k (by omega)]
    simp only [fieldName, List.getElem_map, List.getElem_range]

/-- A field agrees with the name in it up to the first zero byte. -/
theorem eq_cstr_fieldName (hj : j < fnameSize) (h : ∀ k < j, f k ≠ 0) :
    f j = cstr (fieldName f) j :=
  (fieldName_eq_iff (not_mem_fieldName f) (length_fieldName_le f)).mp rfl j hj h

/-- Fields that agree up to the first zero byte hold the same name. -/
theorem fieldName_congr (h : ∀ j < fnameSize, (∀ k < j, f k ≠ 0) → g j = f j) :
    fieldName g = fieldName f := by
  have hbefore : ∀ j < fnameSize, (∀ k < j, g k ≠ 0) → ∀ k < j, f k ≠ 0 := by
    intro j hj hg k
    induction k using Nat.strong_induction_on with
    | _ k ih =>
      intro hk hz
      apply hg k hk
      rw [h k (by omega) fun l hl => ih l hl (by omega)]
      exact hz
  apply (fieldName_eq_iff (not_mem_fieldName f) (length_fieldName_le f)).mpr
  intro j hj hg
  rw [h j hj (hbefore j hj hg), eq_cstr_fieldName hj (hbefore j hj hg)]

/-- **What `strncmp` compares**: a name and a string are the same up to 32 bytes. -/
theorem strncmp_eq_zero_iff_fieldName (hs : IsString fname s) :
    strncmp f fname fnameSize = 0 ↔ fieldName f = s.take fnameSize := by
  have h0 : (0 : Byte) ∉ s.take fnameSize := fun h => hs.1 (List.mem_of_mem_take h)
  have hcut : ∀ j < fnameSize, cstr (s.take fnameSize) j = cstr s j := by
    intro j hj
    rw [cstr, cstr, List.getD_eq_getElem?_getD, List.getD_eq_getElem?_getD, List.getElem?_take,
      if_pos hj]
  rw [strncmp_eq_zero_iff, fieldName_eq_iff h0 (List.length_take_le _ _)]
  constructor
  · intro h j hj hbefore
    rw [hcut j hj, h j hj hbefore]
    apply hs.2
    by_contra hpast
    have hz := h s.length (by omega) fun k hk => hbefore k (by omega)
    rw [hs.2 _ (Nat.le_refl _), cstr_of_length_le (Nat.le_refl _)] at hz
    exact hbefore s.length (by omega) hz
  · intro h j hj hbefore
    rw [h j hj hbefore, hcut j hj]
    symm
    apply hs.2
    by_contra hpast
    have hz := h s.length (by omega) fun k hk => hbefore k (by omega)
    rw [hcut _ (by omega), cstr_of_length_le (Nat.le_refl _)] at hz
    exact hbefore s.length (by omega) hz

/-! ## `read_dentry_by_name` -/

namespace Fs

/-- The name of an entry. -/
def entryName (fs : Fs) (img : Memory) (i : ℕ) : List Byte := fieldName (img.view (fs.dentryAddr i))

/-- The first entry with a name. -/
def firstNamed (fs : Fs) (img : Memory) (s : List Byte) : Option ℕ :=
  (List.range fs.numDentries.toNat).find? fun i => decide (fs.entryName img i = s)

theorem firstNamed_eq_some_iff : fs.firstNamed img s = some i ↔
    i < fs.numDentries.toNat ∧ fs.entryName img i = s ∧ ∀ k < i, fs.entryName img k ≠ s := by
  simp only [firstNamed, List.find?_range_eq_some, List.mem_range, decide_eq_true_eq,
    Bool.not_eq_true', decide_eq_false_iff_not]
  exact and_left_comm

theorem firstNamed_eq_none_iff : fs.firstNamed img s = none ↔
    ∀ i < fs.numDentries.toNat, fs.entryName img i ≠ s := by
  simp only [firstNamed, List.find?_range_eq_none, Bool.not_eq_true', decide_eq_false_iff_not]

end Fs

theorem readDentryByNameLoop_eq (hs : IsString fname s) (dentry : Dentry) (fuel i : ℕ) :
    readDentryByNameLoop fs img fname dentry fuel i
      = ((List.range' i fuel).find? fun k => decide (fs.entryName img k = s.take fnameSize)).map
          fun k => copyDentry fs img k
            (strncpy dentry.fname (img.view (fs.dentryAddr k)) fnameSize) := by
  induction fuel generalizing i with
  | zero => rfl
  | succ fuel ih =>
    rw [readDentryByNameLoop, List.range'_succ, List.find?_cons]
    by_cases hname : fs.entryName img i = s.take fnameSize
    · rw [if_pos ((strncmp_eq_zero_iff_fieldName hs).mpr hname), decide_eq_true hname]
      rfl
    · rw [if_neg fun h => hname ((strncmp_eq_zero_iff_fieldName hs).mp h), decide_eq_false hname,
        ih]

/-- **`read_dentry_by_name`** finds the first entry with the name, cut to 32 bytes. -/
theorem readDentryByName_eq (hbase : fs.fsBaseAdr ≠ 0) (hs : IsString fname s) (dentry : Dentry) :
    readDentryByName fs img fname dentry = (fs.firstNamed img (s.take fnameSize)).map fun k =>
      copyDentry fs img k (strncpy dentry.fname (img.view (fs.dentryAddr k)) fnameSize) := by
  rw [readDentryByName, if_neg hbase, readDentryByNameLoop_eq hs, Fs.firstNamed,
    List.range_eq_range']

/-- A lookup reads a string up to its zero byte. -/
theorem readDentryByName_congr (hf : IsString f s) (hg : IsString g s) (dentry : Dentry) :
    readDentryByName fs img f dentry = readDentryByName fs img g dentry := by
  rw [readDentryByName, readDentryByName, readDentryByNameLoop_eq hf, readDentryByNameLoop_eq hg]

/-! ## The dentry in memory -/

/-- The `dentry_t` at `p`. -/
def Dentry.load (mem : Memory) (p : Word) : Dentry :=
  ⟨mem.view p, mem.load32 (p + 32), mem.load32 (p + 36)⟩

/-- Memory with a dentry filled in at `p`: the bytes that were copied, then the type and the
inode. -/
def Dentry.store (e : Dentry) (p : Word) : Memory :=
  ((Memory.based p e.fname).store32 (p + 32) e.type).store32 (p + 36) e.inode

/-- `read_dentry_by_name` with the dentry at `p`. -/
def readDentryByNameAt (fs : Fs) (img : Memory) (fname : ℕ → Byte) (p : Word) (mem : Memory) :
    Word × Memory :=
  if p = 0 then (error, mem)
  else
    match readDentryByName fs img fname (Dentry.load mem p) with
    | none => (error, mem)
    | some e => (0, e.store p)

/-- `read_dentry_by_index` with the dentry at `p`. -/
def readDentryByIndexAt (fs : Fs) (img : Memory) (index p : Word) (mem : Memory) :
    Option (Word × Memory) :=
  if p = 0 then some (error, mem)
  else
    (readDentryByIndex fs img index.toNat (Dentry.load mem p)).map fun (ret, e) =>
      (ret, if ret = 0 then e.store p else mem)

/-- The dentry at `p` has been filled in with entry `i`: its name, type and inode are there, and
nothing else has changed. -/
structure FilledIn (fs : Fs) (img : Memory) (i : ℕ) (p : Word) (mem mem' : Memory) : Prop where
  name : fieldName (mem'.view p) = fs.entryName img i
  type : mem'.load32 (p + 32) = img.load32 (fs.dentryAddr i + 32)
  inode : mem'.load32 (p + 36) = img.load32 (fs.dentryAddr i + 36)
  frame : ∀ a, ¬ InSpan a p 40 → mem' a = mem a

/-- A copy of the name fills in the dentry when it stays below the reserved bytes. -/
theorem filledIn_store (hname : ∀ j < fnameSize, (∀ k < j, img.view (fs.dentryAddr i) k ≠ 0) →
      f j = img.view (fs.dentryAddr i) j)
    (hrest : ∀ j, 40 ≤ j → f j = mem.view p j) :
    FilledIn fs img i p mem ((copyDentry fs img i f).store p) := by
  have hbytes : ∀ a, ¬ InSpan a (p + 32) 4 → ¬ InSpan a (p + 36) 4 →
      (copyDentry fs img i f).store p a = f (a - p).toNat := by
    intro a h1 h2
    rw [Dentry.store, Memory.store32_of_not_inSpan _ _ h2, Memory.store32_of_not_inSpan _ _ h1]
    rfl
  constructor
  · apply fieldName_congr
    intro j hj hbefore
    have hj' : j < 32 := hj
    have hoff : (p + BitVec.ofNat 32 j - p).toNat = j := by bv_omega
    rw [Memory.view, hbytes, hoff, hname j hj hbefore]
    · rw [InSpan]
      bv_omega
    · rw [InSpan]
      bv_omega
  · rw [Dentry.store, Memory.load32_store32_of_disjoint _ _ (by bv_omega) (by bv_omega),
      Memory.load32_store32_self]
    rfl
  · rw [Dentry.store, Memory.load32_store32_self]
    rfl
  · intro a ha
    rw [InSpan] at ha
    rw [hbytes, hrest _ (Nat.le_of_not_lt ha), Memory.view_sub]
    · rw [InSpan]
      bv_omega
    · rw [InSpan]
      bv_omega

/-- The `strncpy` of `read_dentry_by_name` copies the name and pads it. -/
theorem filledIn_strncpy (fs : Fs) (img mem : Memory) (i : ℕ) (p : Word) :
    FilledIn fs img i p mem ((copyDentry fs img i
      (strncpy (mem.view p) (img.view (fs.dentryAddr i)) fnameSize)).store p) := by
  apply filledIn_store
  · intro j hj hbefore
    rw [strncpy_of_lt hj]
    by_cases hz : img.view (fs.dentryAddr i) j = 0
    · rw [if_neg fun h => h j (Nat.le_refl j) hz, hz]
    · rw [if_pos]
      intro k hk
      rcases Nat.eq_or_lt_of_le hk with rfl | hlt
      · exact hz
      · exact hbefore k hlt
  · intro j hj
    apply strncpyCopy_of_outside
    right
    show 0 + 32 ≤ j
    omega

/-- **What a lookup by name should do**: fill in the dentry with the first entry of that name, or
return -1 and leave it as it was. -/
def LookupExact (fs : Fs) (img : Memory) (fname : ℕ → Byte) (s : List Byte) : Prop :=
  ∀ (p : Word) (mem : Memory), p ≠ 0 →
    let r := readDentryByNameAt fs img fname p mem
    match fs.firstNamed img s with
    | some i => r.1 = 0 ∧ FilledIn fs img i p mem r.2
    | none => r = (error, mem)

/-- A lookup of a string of at most 32 bytes is exact. -/
theorem lookupExact_of_length_le (hbase : fs.fsBaseAdr ≠ 0) (hs : IsString fname s)
    (hlen : s.length ≤ fnameSize) : LookupExact fs img fname s := by
  intro p mem hp
  dsimp only
  rw [readDentryByNameAt, if_neg hp, readDentryByName_eq hbase hs, List.take_of_length_le hlen]
  cases fs.firstNamed img s with
  | none => rfl
  | some i => exact ⟨rfl, filledIn_strncpy fs img mem i p⟩

/-- **When a lookup is exact**: if and only if the string is not longer than a name, or its first 32
bytes are no entry's name. -/
theorem lookupExact_iff (hbase : fs.fsBaseAdr ≠ 0) (hs : IsString fname s) :
    LookupExact fs img fname s ↔ s.length ≤ fnameSize ∨
      ∀ i < fs.numDentries.toNat, fs.entryName img i ≠ s.take fnameSize := by
  by_cases hlen : s.length ≤ fnameSize
  · exact iff_of_true (lookupExact_of_length_le hbase hs hlen) (.inl hlen)
  -- no name is as long as the string
  have hlong : fs.firstNamed img s = none := by
    apply Fs.firstNamed_eq_none_iff.mpr
    rintro i - rfl
    exact hlen (length_fieldName_le _)
  rw [or_iff_right hlen, ← Fs.firstNamed_eq_none_iff]
  constructor
  · intro h
    have hret := h 1 (fun _ => 0) (by decide)
    dsimp only at hret
    rw [hlong, readDentryByNameAt, if_neg (by decide), readDentryByName_eq hbase hs] at hret
    cases hfound : fs.firstNamed img (s.take fnameSize) with
    | none => rfl
    | some i =>
      rw [hfound] at hret
      have herr : (0 : Word) = error := congrArg Prod.fst hret
      exact absurd herr (by decide)
  · intro h p mem hp
    dsimp only
    rw [hlong, readDentryByNameAt, if_neg hp, readDentryByName_eq hbase hs, h]
    rfl

/-- `shell` is found in the sample image as it is. -/
theorem lookupExact_iff_sample :
    LookupExact (fsInit sampleImage sampleBase) sampleImage (cstr shell) shell :=
  (lookupExact_iff (by decide) (isString_cstr (by decide))).mpr (.inl (by decide))

/-- A string of `n` letters. -/
def letters (n : ℕ) : List Byte := List.replicate n (chr 'n')

/-- The sample image with a name of 32 letters in the place of `shell`. -/
def sampleNamed : Memory := sampleImage.patch (sampleBase + 192) 0 fnameSize (cstr (letters 32))

/-- A string of 33 letters is the name of no entry, and it is found. -/
theorem not_lookupExact_sampleNamed :
    (∀ i < 3, (fsInit sampleNamed sampleBase).entryName sampleNamed i ≠ letters 33) ∧
      ¬ LookupExact (fsInit sampleNamed sampleBase) sampleNamed (cstr (letters 33))
        (letters 33) := by
  refine ⟨by decide, ?_⟩
  intro h
  have hnone : (fsInit sampleNamed sampleBase).firstNamed sampleNamed (letters 33) = none := by
    decide
  have hfound : (readDentryByNameAt (fsInit sampleNamed sampleBase) sampleNamed (cstr (letters 33))
      1 (fun _ => 0)).1 = 0 := by
    decide
  have hret := h 1 (fun _ => 0) (by decide)
  dsimp only at hret
  rw [hnone] at hret
  rw [hret] at hfound
  exact absurd hfound (by decide)

/-! ## `read_dentry_by_index` -/

/-- A type below 256 has a zero byte, where the copy of a name stops at the latest. -/
theorem exists_terminator (htype : (img.load32 (fs.dentryAddr i + 32)).toNat < 256) :
    ∃ z < 34, img.view (fs.dentryAddr i) z = 0 := by
  refine ⟨33, by omega, ?_⟩
  have haddr : fs.dentryAddr i + BitVec.ofNat 32 33 = fs.dentryAddr i + 32 + 1 := by bv_omega
  rw [Memory.view, haddr]
  exact Memory.byte_eq_zero_of_load32_lt htype

/-- **`read_dentry_by_index`** stays in the dentry, and fills it in. -/
theorem readDentryByIndexAt_of_lt (hbase : fs.fsBaseAdr ≠ 0) {index : Word}
    (hindex : index < fs.numDentries)
    (htype : (img.load32 (fs.dentryAddr index.toNat + 32)).toNat < 256) (hp : p ≠ 0)
    (mem : Memory) :
    ∃ mem', readDentryByIndexAt fs img index p mem = some (0, mem') ∧
      FilledIn fs img index.toNat p mem mem' := by
  have hlt : index.toNat < fs.numDentries.toNat := hindex
  obtain ⟨z, hz, hzero⟩ := exists_terminator htype
  obtain ⟨d, hd⟩ := (strcpyLoop_isSome_iff entrySize 0 (mem.view p)).mpr
    ⟨z, Nat.zero_le z, by change z < 0 + 64; omega, hzero⟩
  refine ⟨(copyDentry fs img index.toNat d).store p, ?_, ?_⟩
  · rw [readDentryByIndexAt, if_neg hp, readDentryByIndex, if_neg hbase, if_neg (by omega), strcpy]
    show Option.map _ (Option.map _ (strcpyLoop (img.view (fs.dentryAddr index.toNat)) entrySize 0
      (mem.view p))) = _
    rw [hd]
    rfl
  · apply filledIn_store
    · intro j _ hbefore
      exact strcpy_apply hd hbefore
    · intro j hj
      exact strcpyLoop_of_gt hd (Nat.zero_le z) hzero (by omega)

/-- **The two lookups agree.** In a directory whose types are below 256, the entry of an index is
copied without leaving the dentry; when no other entry has its name, a lookup of the name fills in
the same; and an index that is too large leaves the dentry as it was. -/
theorem lookups_agree (hbase : fs.fsBaseAdr ≠ 0)
    (hdistinct : ∀ i < fs.numDentries.toNat, ∀ k < fs.numDentries.toNat,
      fs.entryName img i = fs.entryName img k → i = k)
    (htype : ∀ i < fs.numDentries.toNat, (img.load32 (fs.dentryAddr i + 32)).toNat < 256)
    (hp : p ≠ 0) (mem : Memory) (index : Word) :
    (index < fs.numDentries →
      ∃ mem', readDentryByIndexAt fs img index p mem = some (0, mem') ∧
        FilledIn fs img index.toNat p mem mem' ∧
        ∀ fname, IsString fname (fs.entryName img index.toNat) →
          ∃ mem'', readDentryByNameAt fs img fname p mem = (0, mem'') ∧
            FilledIn fs img index.toNat p mem mem'') ∧
    (fs.numDentries ≤ index → readDentryByIndexAt fs img index p mem = some (error, mem)) := by
  constructor
  · intro hindex
    have hlt : index.toNat < fs.numDentries.toNat := hindex
    obtain ⟨mem', hread, hfilled⟩ :=
      readDentryByIndexAt_of_lt hbase hindex (htype _ hlt) hp mem
    refine ⟨mem', hread, hfilled, ?_⟩
    intro fname hs
    have hfirst : fs.firstNamed img (fs.entryName img index.toNat) = some index.toNat := by
      refine Fs.firstNamed_eq_some_iff.mpr ⟨hlt, rfl, ?_⟩
      intro k hk hname
      have hsame := hdistinct k (by omega) _ hlt hname
      omega
    have hexact : LookupExact fs img fname _ :=
      lookupExact_of_length_le hbase hs (length_fieldName_le _)
    have hfound := hexact p mem hp
    dsimp only at hfound
    rw [hfirst] at hfound
    exact ⟨_, Prod.ext hfound.1 rfl, hfound.2⟩
  · intro hindex
    have hle : fs.numDentries.toNat ≤ index.toNat := hindex
    rw [readDentryByIndexAt, if_neg hp, readDentryByIndex, if_neg hbase, if_pos hle]
    rfl

/-- Entry 2 of the sample image is found by its name. -/
theorem lookups_agree_sample :
    ∃ mem, readDentryByNameAt (fsInit sampleImage sampleBase) sampleImage (cstr shell) 0x7ff000
        (fun _ => 0) = (0, mem) ∧
      FilledIn (fsInit sampleImage sampleBase) sampleImage 2 0x7ff000 (fun _ => 0) mem := by
  have hnum : (fsInit sampleImage sampleBase).numDentries.toNat = 3 := by decide
  have hname : (fsInit sampleImage sampleBase).entryName sampleImage 2 = shell := by
    decide
  have hs : IsString (cstr shell) ((fsInit sampleImage sampleBase).entryName sampleImage 2) := by
    rw [hname]
    exact isString_cstr (by decide)
  have hdistinct : ∀ i < 3, ∀ k < 3, (fsInit sampleImage sampleBase).entryName sampleImage i
      = (fsInit sampleImage sampleBase).entryName sampleImage k → i = k := by
    decide
  have htype : ∀ i < 3, (sampleImage.load32
      ((fsInit sampleImage sampleBase).dentryAddr i + 32)).toNat < 256 := by
    decide
  rw [← hnum] at hdistinct htype
  have hp : (0x7ff000 : Word) ≠ 0 := by decide
  obtain ⟨hlookups, -⟩ := lookups_agree (by decide) hdistinct htype hp (fun _ => 0) 2
  obtain ⟨-, -, -, hbyname⟩ := hlookups (by decide)
  exact hbyname (cstr shell) hs

end HieUnix
