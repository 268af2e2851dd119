import HieUnix.FileSystem
import HieUnix.Lib.Cursor

/-!
# Reading a regular file

What `read_data` and `file_read` compute on a file whose metadata is sound. The content of a
file is stated by the format alone, in natural numbers (`Fs.fileByte`): byte `p` is byte
`p % 4096` of the data block that entry `p / 4096` of the block table names. The copy loop of
`read_data` is then a patch of the caller's buffer with these bytes, and a list of `file_read`
calls is a list of cursor reads of the content.
-/

namespace HieUnix

/-! ## The content of a file -/

namespace Fs

variable (fs : Fs) (img : Memory)

/-- Entry `k` of the block table of an index node. -/
def fileBlock (inode k : ℕ) : Word :=
  img.load32 (BitVec.ofNat 32 (fs.fsBaseAdr.toNat + (inode + 1) * 4096 + 4 * (k + 1)))

/-- Byte `p` of a file. -/
def fileByte (inode p : ℕ) : Byte :=
  img (BitVec.ofNat 32 (fs.fsBaseAdr.toNat
    + (fs.numIndexNodes.toNat + 1 + (fs.fileBlock img inode (p / 4096)).toNat) * 4096 + p % 4096))

/-- The content of a file. -/
def fileContent (inode : Word) : List Byte :=
  (List.range (getFileLength fs img inode).toNat).map (fs.fileByte img inode.toNat)

@[simp] theorem length_fileContent (inode : Word) :
    (fs.fileContent img inode).length = (getFileLength fs img inode).toNat := by
  simp [fileContent]

/-- The file at `inode` is sound: the image fits in the address space from `fs_base_adr` on,
the index node exists, the length is one the block table can hold, and the blocks that hold
the content exist. -/
structure GoodFile (inode : Word) : Prop where
  fits : fs.fsBaseAdr.toNat + (1 + fs.numIndexNodes.toNat + fs.numDataBlocks.toNat) * 4096 ≤ 2 ^ 32
  inode_lt : inode < fs.numIndexNodes
  length_le : (getFileLength fs img inode).toNat ≤ 1023 * 4096
  blocks : ∀ k, k * 4096 < (getFileLength fs img inode).toNat →
    fs.fileBlock img inode.toNat k < fs.numDataBlocks

end Fs

/-! ## The code's address arithmetic -/

theorem ofNat_div_blockSize {p : ℕ} (hp : p < 2 ^ 32) :
    BitVec.ofNat 32 p / blockSize = BitVec.ofNat 32 (p / 4096) := by
  apply BitVec.eq_of_toNat_eq
  rw [BitVec.toNat_udiv, BitVec.toNat_ofNat, BitVec.toNat_ofNat, Nat.mod_eq_of_lt hp]
  show p / 4096 = p / 4096 % 2 ^ 32
  omega

theorem ofNat_mod_blockSize {p : ℕ} (hp : p < 2 ^ 32) :
    BitVec.ofNat 32 p % blockSize = BitVec.ofNat 32 (p % 4096) := by
  apply BitVec.eq_of_toNat_eq
  rw [BitVec.toNat_umod, BitVec.toNat_ofNat, BitVec.toNat_ofNat, Nat.mod_eq_of_lt hp]
  show p % 4096 = p % 4096 % 2 ^ 32
  omega

variable {fs : Fs} {img : Memory} {inode : Word}

/-- The block number `read_data` looks up at position `p` is the format's. -/
theorem blockNumber_eq_fileBlock {p : ℕ} (hp : p < 2 ^ 32) :
    fs.blockNumber img inode (BitVec.ofNat 32 p / blockSize)
      = fs.fileBlock img inode.toNat (p / 4096) := by
  rw [Fs.blockNumber, Fs.fileBlock, Fs.inodeAddr, ofNat_div_blockSize hp]
  congr 1
  bv_omega

/-- The byte `read_data` copies at position `p` is the format's. -/
theorem dataAddr_eq_fileByte {p : ℕ} (hp : p < 2 ^ 32) :
    img (fs.dataAddr (fs.fileBlock img inode.toNat (p / 4096)) (BitVec.ofNat 32 p % blockSize))
      = fs.fileByte img inode.toNat p := by
  rw [Fs.fileByte, Fs.dataAddr, ofNat_mod_blockSize hp]
  congr 1
  bv_omega

/-! ## `read_data` -/

/-- The block of byte `p` of a file is not one of the image. -/
def Fs.BadBlock (fs : Fs) (img : Memory) (inode : Word) (p : ℕ) : Prop :=
  fs.numDataBlocks ≤ fs.fileBlock img inode.toNat (p / 4096)

/-- **The loop stops at the first bad block**, or where the request or the file ends. What it has
copied until then is in the buffer, and nothing else was written. -/
theorem readDataLoop_stops {fileLength offset buf : Word} {fuel i : ℕ} {mem : Memory}
    (hlt : offset.toNat + i < fileLength.toNat) (hfuel : i + fuel < 2 ^ 32) :
    let n := i + min fuel (fileLength.toNat - (offset.toNat + i))
    let r := readDataLoop fs img inode fileLength offset buf fuel i mem
    ∃ d, i ≤ d ∧ d ≤ n ∧ (∀ j, i ≤ j → j < d → ¬ fs.BadBlock img inode (offset.toNat + j)) ∧
      r.2 = mem.patch buf i d (fun j => fs.fileByte img inode.toNat (offset.toNat + j)) ∧
      (d = n ∧ r.1 = BitVec.ofNat 32 n ∨
        d < n ∧ fs.BadBlock img inode (offset.toNat + d) ∧ r.1 = error) := by
  induction fuel generalizing i mem with
  | zero =>
    refine ⟨i, Nat.le_refl i, by omega, fun j h1 h2 => by omega, ?_, .inl ⟨by omega, ?_⟩⟩
    · rw [Memory.patch_self]
      rfl
    · rw [Nat.zero_min]
      rfl
  | succ fuel ih =>
    intro n r
    have hlen := fileLength.isLt
    have hp : offset.toNat + i < 2 ^ 32 := by omega
    have hpos : offset + BitVec.ofNat 32 i = BitVec.ofNat 32 (offset.toNat + i) := by bv_omega
    have hn : i < n := by omega
    have hr : r = readDataLoop fs img inode fileLength offset buf (fuel + 1) i mem := rfl
    rw [readDataLoop] at hr
    simp only [hpos, blockNumber_eq_fileBlock hp, dataAddr_eq_fileByte hp] at hr
    by_cases hbad : fs.numDataBlocks ≤ fs.fileBlock img inode.toNat ((offset.toNat + i) / 4096)
    · rw [if_pos hbad] at hr
      rw [hr]
      refine ⟨i, Nat.le_refl i, by omega, fun j h1 h2 => by omega, ?_, .inr ⟨hn, hbad, rfl⟩⟩
      rw [Memory.patch_self]
    rw [if_neg hbad] at hr
    have hfirst : ∀ j, i ≤ j → j < i + 1 → ¬ fs.BadBlock img inode (offset.toNat + j) := by
      intro j h1 h2
      obtain rfl : j = i := by omega
      exact hbad
    by_cases hend : fileLength.toNat ≤ offset.toNat + i + 1
    -- the byte just copied was the last of the file
    · rw [if_pos (by bv_omega)] at hr
      have hn1 : n = i + 1 := by omega
      rw [hr, hn1]
      refine ⟨i + 1, by omega, Nat.le_refl _, hfirst, ?_, .inl ⟨rfl, rfl⟩⟩
      rw [← Memory.patch_store8 mem buf _ (Nat.lt_succ_self i) (by omega), Memory.patch_self]
    · rw [if_neg (by bv_omega)] at hr
      have hn1 : n = i + 1 + min fuel (fileLength.toNat - (offset.toNat + (i + 1))) := by omega
      obtain ⟨d, hid, hdn, hgood, hmem, hstop⟩ := @ih (i + 1)
        (mem.store8 (buf + BitVec.ofNat 32 i) (fs.fileByte img inode.toNat (offset.toNat + i)))
        (by omega) (by omega)
      rw [← hn1] at hdn hstop
      rw [hr]
      refine ⟨d, by omega, hdn, ?_, ?_, hstop⟩
      · intro j h1 h2
        by_cases hj : j < i + 1
        · exact hfirst j h1 hj
        · exact hgood j (by omega) h2
      · rw [hmem]
        exact Memory.patch_store8 mem buf
          (fun j => fs.fileByte img inode.toNat (offset.toNat + j)) (by omega) (by omega)

/-- The memory after a successful `read_data` of `n` bytes at `offset`: the buffer is cleared
and then holds the bytes read. -/
def readMemory (fs : Fs) (img : Memory) (inode offset : Word) (mem : Memory) (buf length : Word)
    (n : ℕ) : Memory :=
  (mem.fill buf 0 length.toNat).patch buf 0 n fun j =>
    fs.fileByte img inode.toNat (offset.toNat + j)

/-- **`read_data` stops at the first bad block**, or where the request or the file ends. -/
theorem readData_stops (img : Memory) (hbase : fs.fsBaseAdr ≠ 0)
    (hinode : inode < fs.numIndexNodes) {buf : Word} (hbuf : buf ≠ 0) (offset length : Word)
    (mem : Memory) :
    let n := min length.toNat ((getFileLength fs img inode).toNat - offset.toNat)
    let r := readData fs img inode offset mem buf length
    ∃ d, d ≤ n ∧ (∀ j < d, ¬ fs.BadBlock img inode (offset.toNat + j)) ∧
      r.2 = readMemory fs img inode offset mem buf length d ∧
      (d = n ∧ r.1 = BitVec.ofNat 32 n ∨
        d < n ∧ fs.BadBlock img inode (offset.toNat + d) ∧ r.1 = error) := by
  intro n r
  have hr : r = readData fs img inode offset mem buf length := rfl
  rw [readData, if_neg hbase, if_neg (BitVec.not_le.mpr hinode), if_neg hbuf] at hr
  dsimp only at hr
  by_cases hend : (getFileLength fs img inode).toNat ≤ offset.toNat
  · rw [if_pos (by bv_omega)] at hr
    have hn : n = 0 := by omega
    rw [hr, hn]
    refine ⟨0, Nat.le_refl 0, fun j hj => absurd hj (Nat.not_lt_zero j), ?_, .inl ⟨rfl, rfl⟩⟩
    rw [readMemory, Memory.patch_self]
  · rw [if_neg (by bv_omega)] at hr
    have hlen := length.isLt
    obtain ⟨d, -, hdn, hgood, hmem, hstop⟩ := @readDataLoop_stops fs img inode
      (getFileLength fs img inode) offset buf length.toNat 0 (mem.fill buf 0 length.toNat)
      (by omega) (by omega)
    have hn : 0 + min length.toNat ((getFileLength fs img inode).toNat - (offset.toNat + 0))
        = n := by
      omega
    rw [hn] at hdn hstop
    rw [hr]
    exact ⟨d, hdn, fun j hj => hgood j (Nat.zero_le j) hj, hmem, hstop⟩

/-- **`read_data` on a sound file** copies what the request and the file allow. -/
theorem readData_eq (hbase : fs.fsBaseAdr ≠ 0) (hgood : fs.GoodFile img inode) {buf : Word}
    (hbuf : buf ≠ 0) (offset length : Word) (mem : Memory) :
    let n := min length.toNat ((getFileLength fs img inode).toNat - offset.toNat)
    readData fs img inode offset mem buf length
      = (BitVec.ofNat 32 n, readMemory fs img inode offset mem buf length n) := by
  intro n
  obtain ⟨d, -, -, hmem, hstop⟩ :=
    readData_stops img hbase hgood.inode_lt hbuf offset length mem
  rcases hstop with ⟨rfl, hret⟩ | ⟨hdn, hbad, -⟩
  · exact Prod.ext hret hmem
  · exact absurd hbad (BitVec.not_le.mpr (hgood.blocks _ (by omega)))

/-! ## `file_open` and `file_read` -/

/-- Every lookup needs an initialised file system. -/
theorem fsBaseAdr_ne_zero_of_lookup {fname : ℕ → Byte} {dentry entry : Dentry}
    (h : readDentryByName fs img fname dentry = some entry) : fs.fsBaseAdr ≠ 0 := by
  intro h0
  rw [readDentryByName, if_pos h0] at h
  cases h

/-- The pointer to an index node of the image is not null. -/
theorem inodeAddr_ne_zero (hgood : fs.GoodFile img inode) :
    fs.inodeAddr inode ≠ 0 := by
  have hfits := hgood.fits
  have hlt := hgood.inode_lt
  rw [Fs.inodeAddr]
  bv_omega

/-- Recovering the index node from `inode_p` undoes its encoding in `file_open`. -/
theorem inode_of_inodeAddr (hgood : fs.GoodFile img inode) :
    (fs.inodeAddr inode - fs.fsBaseAdr) / blockSize - 1 = inode := by
  have hfits := hgood.fits
  have hlt : inode.toNat < fs.numIndexNodes.toNat := hgood.inode_lt
  have hdiff : fs.inodeAddr inode - fs.fsBaseAdr
      = BitVec.ofNat 32 ((inode.toNat + 1) * 4096) := by
    rw [Fs.inodeAddr]
    bv_omega
  rw [hdiff, ofNat_div_blockSize (by omega), Nat.mul_div_cancel _ (by omega)]
  bv_omega

/-- The descriptor of an open regular file at position `pos`. -/
def openedFile (fs : Fs) (inode : Word) (pos : ℕ) : Fd :=
  ⟨some .fileFops, fs.inodeAddr inode, BitVec.ofNat 32 pos, 1⟩

/-- **`file_read` on a sound file**: one cursor read of the content. -/
theorem fileRead_eq (hbase : fs.fsBaseAdr ≠ 0) (hgood : fs.GoodFile img inode) {buf : Word}
    (hbuf : buf ≠ 0) {pos : ℕ} (hpos : pos ≤ (getFileLength fs img inode).toNat) (nbytes : Word)
    (mem : Memory) :
    let n := min nbytes.toNat ((getFileLength fs img inode).toNat - pos)
    fileRead fs img (openedFile fs inode pos) mem buf nbytes
      = (BitVec.ofNat 32 n, openedFile fs inode (pos + n),
          readMemory fs img inode (BitVec.ofNat 32 pos) mem buf nbytes n) := by
  intro n
  have hlen := (getFileLength fs img inode).isLt
  have hpos' : (BitVec.ofNat 32 pos).toNat = pos := by
    rw [BitVec.toNat_ofNat, Nat.mod_eq_of_lt (by omega)]
  have hopen : ¬ ((openedFile fs inode pos).flags ≠ 1 ∨ (openedFile fs inode pos).inodeP = 0) :=
    fun h => h.elim (fun h => h rfl) (inodeAddr_ne_zero hgood)
  rw [fileRead, if_neg hopen]
  simp only [openedFile, inode_of_inodeAddr hgood]
  rw [readData_eq hbase hgood hbuf]
  simp only [hpos']
  rw [← BitVec.ofNat_add]

/-- The bytes a `file_read` puts in the buffer are those of the content. -/
theorem bytes_readMemory {buf nbytes : Word} {pos n : ℕ} {mem : Memory}
    (hpos : pos ≤ (getFileLength fs img inode).toNat)
    (hn : n = min nbytes.toNat ((getFileLength fs img inode).toNat - pos)) :
    (readMemory fs img inode (BitVec.ofNat 32 pos) mem buf nbytes n).bytes buf n
      = Cursor.read (fs.fileContent img inode) pos nbytes.toNat := by
  have hlen := (getFileLength fs img inode).isLt
  have hpos' : (BitVec.ofNat 32 pos).toNat = pos := by
    rw [BitVec.toNat_ofNat, Nat.mod_eq_of_lt (by omega)]
  rw [readMemory, Memory.bytes_patch le_rfl (by omega), hpos']
  refine List.ext_getElem ?_ fun j h1 h2 => ?_
  · simp [hn]
  · simp [Cursor.read, Fs.fileContent]

/-! ## A list of reads -/

/-- One `file_read` call: where to and how much. A null buffer is no buffer. -/
structure ReadRequest where
  buf : Word
  nbytes : Word
  buf_ne : buf ≠ 0

/-- The calls one after the other: the value each returns with the bytes it returned, and the
descriptor and memory after them. -/
def fileReads (fs : Fs) (img : Memory) : Fd → Memory → List ReadRequest →
    List (Word × List Byte) × Fd × Memory
  | fd, mem, [] => ([], fd, mem)
  | fd, mem, r :: rs =>
    let (ret, fd, mem) := fileRead fs img fd mem r.buf r.nbytes
    let (results, fd', mem') := fileReads fs img fd mem rs
    ((ret, mem.bytes r.buf ret.toNat) :: results, fd', mem')

/-- What a cursor returns for one request, as the calling convention has it. -/
def asResult (piece : List Byte) : Word × List Byte := (BitVec.ofNat 32 piece.length, piece)

/-- Reads of a sound file are cursor reads of its content. -/
theorem fileReads_eq (hbase : fs.fsBaseAdr ≠ 0) (hgood : fs.GoodFile img inode)
    (reqs : List ReadRequest) {pos : ℕ} (hpos : pos ≤ (getFileLength fs img inode).toNat)
    (mem : Memory) :
    let sizes := reqs.map fun r => r.nbytes.toNat
    let pieces := Cursor.reads (fs.fileContent img inode) pos sizes
    (fileReads fs img (openedFile fs inode pos) mem reqs).1 = pieces.map asResult ∧
      (fileReads fs img (openedFile fs inode pos) mem reqs).2.1
        = openedFile fs inode (pos + pieces.flatten.length) := by
  induction reqs generalizing pos mem with
  | nil => exact ⟨rfl, rfl⟩
  | cons r rs ih =>
    intro sizes pieces
    have hlen := (getFileLength fs img inode).isLt
    -- the rest of the requests start where this read has stopped
    obtain ⟨hres, hfd⟩ := @ih
      (pos + min r.nbytes.toNat ((getFileLength fs img inode).toNat - pos)) (by omega)
      (readMemory fs img inode (BitVec.ofNat 32 pos) mem r.buf r.nbytes
        (min r.nbytes.toNat ((getFileLength fs img inode).toNat - pos)))
    have hn : (BitVec.ofNat 32
        (min r.nbytes.toNat ((getFileLength fs img inode).toNat - pos))).toNat
          = min r.nbytes.toNat ((getFileLength fs img inode).toNat - pos) := by
      rw [BitVec.toNat_ofNat, Nat.mod_eq_of_lt (by omega)]
    simp only [fileReads, fileRead_eq hbase hgood r.buf_ne hpos, hn, bytes_readMemory hpos rfl]
    refine ⟨?_, ?_⟩
    · simp only [hres, pieces, sizes, List.map_cons, Cursor.reads, asResult, Cursor.length_read,
        Fs.length_fileContent]
    · rw [hfd]
      simp only [pieces, sizes, List.map_cons, Cursor.reads, List.flatten_cons,
        List.length_append, Cursor.length_read, Fs.length_fileContent, Nat.add_assoc]

/-- **Sequential reading.** `file_open` on a regular file with sound metadata succeeds, and
the `file_read` calls that follow return what each request and the rest of the content allow:
put together, the beginning of the content that the requests cover. The position is how much
that is, and from the end of the content on a read returns 0. -/
theorem fileReads_of_fileOpen {fname : ℕ → Byte} {entry : Dentry}
    (hlookup : readDentryByName fs img fname Dentry.uninit = some entry)
    (htype : entry.type = regFile) (hgood : fs.GoodFile img entry.inode) (fd₀ : Fd)
    (mem : Memory) (reqs : List ReadRequest) :
    let content := fs.fileContent img entry.inode
    let sizes := reqs.map fun r => r.nbytes.toNat
    ∃ fd, fileOpen fs img fd₀ fname = (0, fd) ∧
      (fd.inodeP - fs.fsBaseAdr) / blockSize - 1 = entry.inode ∧
      ∃ results fd' mem', fileReads fs img fd mem reqs = (results, fd', mem') ∧
        results.length = reqs.length ∧
        (∀ i (h : i < reqs.length), (results[i]?).map (fun r => r.1.toNat)
          = some (min reqs[i].nbytes.toNat (content.length - (sizes.take i).sum))) ∧
        (results.map Prod.snd).flatten = content.take sizes.sum ∧
        fd'.filePos.toNat = min sizes.sum content.length ∧
        (fd'.filePos.toNat = content.length →
          ∀ r : ReadRequest, (fileRead fs img fd' mem' r.buf r.nbytes).1 = 0) := by
  intro content sizes
  have hbase := fsBaseAdr_ne_zero_of_lookup hlookup
  have hlen := (getFileLength fs img entry.inode).isLt
  obtain ⟨hres, hfd⟩ := fileReads_eq hbase hgood reqs (Nat.zero_le _) mem
  -- where the descriptor ends up
  obtain ⟨n, hn⟩ : ∃ n, n = min sizes.sum content.length := ⟨_, rfl⟩
  have hle : n ≤ (getFileLength fs img entry.inode).toNat := by
    rw [hn, Fs.length_fileContent]
    exact Nat.min_le_right _ _
  have hn' : (BitVec.ofNat 32 n).toNat = n := by
    rw [BitVec.toNat_ofNat, Nat.mod_eq_of_lt (by omega)]
  rw [Cursor.add_length_flatten_reads (Nat.zero_le _), Nat.zero_add, ← hn] at hfd
  refine ⟨openedFile fs entry.inode 0, ?_, inode_of_inodeAddr hgood, _, _, _, rfl, ?_, ?_, ?_, ?_,
    ?_⟩
  · rw [fileOpen, hlookup]
    exact if_pos htype
  · rw [hres, List.length_map, Cursor.length_reads, List.length_map]
  · intro i hi
    rw [hres, List.getElem?_map, Cursor.getElem?_reads, List.getElem?_map,
      List.getElem?_eq_getElem hi]
    simp only [Option.map_some, asResult, Cursor.length_read, Nat.zero_add, Option.some.injEq]
    rw [BitVec.toNat_ofNat, Nat.mod_eq_of_lt (by have := reqs[i].nbytes.isLt; omega)]
  · have hsnd : ∀ pieces : List (List Byte), (pieces.map asResult).map Prod.snd = pieces := by
      intro pieces
      simp [asResult, Function.comp_def]
    rw [hres, hsnd, Cursor.flatten_reads]
    rfl
  · rw [hfd]
    exact hn'.trans hn
  · intro hend r
    rw [hfd] at hend ⊢
    have hnlen : n = (getFileLength fs img entry.inode).toNat := by
      rw [← Fs.length_fileContent, ← hn']
      exact hend
    rw [fileRead_eq hbase hgood r.buf_ne hle, hnlen, Nat.sub_self, Nat.min_zero]
    rfl

/-! ## A small image -/

/-- The nonzero bytes of an image with the entries `.`, `rtc` and `shell`, where `shell` is a
regular file of 40 bytes, the header of a program that starts at `0x08048000`. -/
def sampleBytes : List (ℕ × Byte) :=
  [(0, 3), (4, 1), (8, 1), (64, chr '.'), (96, 1), (128, chr 'r'), (129, chr 't'), (130, chr 'c'),
   (192, chr 's'), (193, chr 'h'), (194, chr 'e'), (195, chr 'l'), (196, chr 'l'), (224, 2),
   (4096, 40), (8192, 0x7F), (8193, chr 'E'), (8194, chr 'L'), (8195, chr 'F'), (8217, 0x80),
   (8218, 0x04), (8219, 0x08)]

/-- Where the image is. -/
def sampleBase : Word := 0x410000

/-- Memory with the image in it. -/
def sampleImage : Memory := fun a => (sampleBytes.lookup (a - sampleBase).toNat).getD 0

theorem sampleImage_goodFile : (fsInit sampleImage sampleBase).GoodFile sampleImage 0 where
  fits := by decide
  inode_lt := by decide
  length_le := by decide
  blocks k hk := by
    have hlen : (getFileLength (fsInit sampleImage sampleBase) sampleImage 0).toNat = 40 := by
      decide
    obtain rfl : k = 0 := by omega
    decide

/-- The lookup of `shell` in the sample image. -/
theorem readDentryByName_sample :
    readDentryByName (fsInit sampleImage sampleBase) sampleImage (cstr shell) Dentry.uninit
      = some (copyDentry (fsInit sampleImage sampleBase) sampleImage 2
          (strncpy Dentry.uninit.fname
            (sampleImage.view ((fsInit sampleImage sampleBase).dentryAddr 2)) fnameSize)) := by
  have hnum : (fsInit sampleImage sampleBase).numDentries.toNat = 3 := by decide
  rw [readDentryByName, if_neg (by decide), hnum, readDentryByNameLoop,
    if_neg (by decide), readDentryByNameLoop, if_neg (by decide),
    readDentryByNameLoop, if_pos (by decide)]

/-- Reading `shell` of the sample image in pieces of two bytes. -/
theorem fileReads_of_fileOpen_sample :
    ∃ fd, fileOpen (fsInit sampleImage sampleBase) sampleImage Fd.closed (cstr shell) = (0, fd) ∧
      ∃ results fd' mem', fileReads (fsInit sampleImage sampleBase) sampleImage fd (fun _ => 0)
          [⟨execAddr, 2, by decide⟩, ⟨execAddr, 2, by decide⟩] = (results, fd', mem') ∧
        (results.map Prod.snd).flatten = [0x7F, chr 'E', chr 'L', chr 'F'] := by
  obtain ⟨fd, hopen, -, results, fd', mem', hreads, -, -, hflat, -⟩ :=
    fileReads_of_fileOpen readDentryByName_sample (by decide) sampleImage_goodFile
      Fd.closed (fun _ => 0) [⟨execAddr, 2, by decide⟩, ⟨execAddr, 2, by decide⟩]
  refine ⟨fd, hopen, results, fd', mem', hreads, hflat.trans ?_⟩
  decide

end HieUnix
