import HieUnix.FileRead

/-!
# `read_data` on any block table

The image and the buffer are in one memory here, and the block numbers of the file may be anything.
The loop of `read_data` stops at the first byte whose block is not one of the image
(`readDataLoop_stops`). While the buffer is apart from the image no store of the loop changes what
it reads (`readDataIn_eq`), and `read_data` is then exact (`readDataIn_exact`): it fails where the
format says so, and otherwise the buffer has the bytes of the file and then zero bytes.
-/

namespace HieUnix

variable {fs : Fs} {img mem : Memory} {inode fileLength offset buf length : Word} {fuel i : ℕ}

/-! ## The image and the buffer in one memory -/

/-- The copy loop of `read_data` from `i` on, when the image is in the memory of the buffer. -/
def readDataLoopIn (fs : Fs) (inode fileLength offset buf : Word) : ℕ → ℕ → Memory → Word × Memory
  | 0, i, mem => (BitVec.ofNat 32 i, mem)
  | fuel + 1, i, mem =>
    let pos := offset + BitVec.ofNat 32 i
    let blockNumber := fs.blockNumber mem inode (pos / blockSize)
    if fs.numDataBlocks ≤ blockNumber then (error, mem)
    else
      let mem :=
        mem.store8 (buf + BitVec.ofNat 32 i) (mem (fs.dataAddr blockNumber (pos % blockSize)))
      if fileLength ≤ pos + 1 then (BitVec.ofNat 32 (i + 1), mem)
      else readDataLoopIn fs inode fileLength offset buf fuel (i + 1) mem

/-- `read_data`, when the image is in the memory of the buffer. -/
def readDataIn (fs : Fs) (inode offset : Word) (mem : Memory) (buf length : Word) : Word × Memory :=
  if fs.fsBaseAdr = 0 then (error, mem)
  else if fs.numIndexNodes ≤ inode then (error, mem)
  else if buf = 0 then (error, mem)
  else
    let mem := mem.fill buf 0 length.toNat
    let fileLength := getFileLength fs mem inode
    if fileLength ≤ offset then (0, mem)
    else readDataLoopIn fs inode fileLength offset buf length.toNat 0 mem

/-- The memory after the `memset` of `read_data` and the copies of the first bytes, each of them
looked up in the memory as it is by then: the buffer may have bytes of the image. -/
def Fs.copied (fs : Fs) (inode offset : Word) (mem : Memory) (buf length : Word) : ℕ → Memory
  | 0 => mem.fill buf 0 length.toNat
  | j + 1 =>
    let mem := fs.copied inode offset mem buf length j
    mem.store8 (buf + BitVec.ofNat 32 j) (fs.fileByte mem inode.toNat (offset.toNat + j))

/-- **On any buffer** the loop stops at the first byte whose block is bad when it comes to it, or
where the request or the file ends. -/
theorem readDataLoopIn_stops (hlt : offset.toNat + i < fileLength.toNat)
    (hfuel : i + fuel < 2 ^ 32) :
    let m := fs.copied inode offset mem buf length
    let n := i + min fuel (fileLength.toNat - (offset.toNat + i))
    let r := readDataLoopIn fs inode fileLength offset buf fuel i (m i)
    ∃ d, i ≤ d ∧ d ≤ n ∧ (∀ j, i ≤ j → j < d → ¬ fs.BadBlock (m j) inode (offset.toNat + j)) ∧
      r.2 = m d ∧
      (d = n ∧ r.1 = BitVec.ofNat 32 n ∨
        d < n ∧ fs.BadBlock (m d) inode (offset.toNat + d) ∧ r.1 = error) := by
  intro m
  induction fuel generalizing i with
  | zero =>
    refine ⟨i, Nat.le_refl i, by omega, fun j h1 h2 => by omega, rfl, .inl ⟨by omega, ?_⟩⟩
    rw [Nat.zero_min]
    rfl
  | succ fuel ih =>
    intro n r
    have hlen := fileLength.isLt
    have hp : offset.toNat + i < 2 ^ 32 := by omega
    have hpos : offset + BitVec.ofNat 32 i = BitVec.ofNat 32 (offset.toNat + i) := by bv_omega
    have hn : i < n := by omega
    have hr : r = readDataLoopIn fs inode fileLength offset buf (fuel + 1) i (m i) := rfl
    rw [readDataLoopIn] at hr
    simp only [hpos, blockNumber_eq_fileBlock hp, dataAddr_eq_fileByte hp] at hr
    by_cases hbad : fs.numDataBlocks ≤ fs.fileBlock (m i) inode.toNat ((offset.toNat + i) / 4096)
    · rw [if_pos hbad] at hr
      rw [hr]
      exact ⟨i, Nat.le_refl i, by omega, fun j h1 h2 => by omega, rfl, .inr ⟨hn, hbad, rfl⟩⟩
    rw [if_neg hbad] at hr
    change r = if fileLength ≤ BitVec.ofNat 32 (offset.toNat + i) + 1 then
      (BitVec.ofNat 32 (i + 1), m (i + 1))
      else readDataLoopIn fs inode fileLength offset buf fuel (i + 1) (m (i + 1)) at hr
    have hfirst : ∀ j, i ≤ j → j < i + 1 → ¬ fs.BadBlock (m j) inode (offset.toNat + j) := by
      intro j h1 h2
      obtain rfl : j = i := by omega
      exact hbad
    by_cases hend : fileLength.toNat ≤ offset.toNat + i + 1
    -- the byte just copied was the last of the file
    · rw [if_pos (by bv_omega)] at hr
      have hn1 : n = i + 1 := by omega
      rw [hr, hn1]
      exact ⟨i + 1, by omega, Nat.le_refl _, hfirst, rfl, .inl ⟨rfl, rfl⟩⟩
    · rw [if_neg (by bv_omega)] at hr
      have hn1 : n = i + 1 + min fuel (fileLength.toNat - (offset.toNat + (i + 1))) := by omega
      obtain ⟨d, hid, hdn, hgood, hmem, hstop⟩ := @ih (i + 1) (by omega) (by omega)
      rw [← hn1] at hdn hstop
      rw [hr]
      refine ⟨d, by omega, hdn, ?_, hmem, hstop⟩
      intro j h1 h2
      by_cases hj : j < i + 1
      · exact hfirst j h1 hj
      · exact hgood j (by omega) h2

/-- **`read_data` on any buffer.** -/
theorem readDataIn_stops (mem : Memory) (hbase : fs.fsBaseAdr ≠ 0)
    (hinode : inode < fs.numIndexNodes) (hbuf : buf ≠ 0) (offset length : Word) :
    let m := fs.copied inode offset mem buf length
    let n := min length.toNat ((getFileLength fs (m 0) inode).toNat - offset.toNat)
    let r := readDataIn fs inode offset mem buf length
    ∃ d, d ≤ n ∧ (∀ j < d, ¬ fs.BadBlock (m j) inode (offset.toNat + j)) ∧ r.2 = m d ∧
      (d = n ∧ r.1 = BitVec.ofNat 32 n ∨
        d < n ∧ fs.BadBlock (m d) inode (offset.toNat + d) ∧ r.1 = error) := by
  intro m n r
  have hr : r = readDataIn fs inode offset mem buf length := rfl
  rw [readDataIn, if_neg hbase, if_neg (BitVec.not_le.mpr hinode), if_neg hbuf] at hr
  change r = if getFileLength fs (m 0) inode ≤ offset then (0, m 0)
    else readDataLoopIn fs inode (getFileLength fs (m 0) inode) offset buf length.toNat 0 (m 0) at hr
  by_cases hend : (getFileLength fs (m 0) inode).toNat ≤ offset.toNat
  · rw [if_pos (by bv_omega)] at hr
    have hn : n = 0 := by omega
    rw [hr, hn]
    exact ⟨0, Nat.le_refl 0, fun j hj => absurd hj (Nat.not_lt_zero j), rfl, .inl ⟨rfl, rfl⟩⟩
  · rw [if_neg (by bv_omega)] at hr
    have hlen := length.isLt
    obtain ⟨d, -, hdn, hgood, hmem, hstop⟩ := @readDataLoopIn_stops fs mem inode
      (getFileLength fs (m 0) inode) offset buf length length.toNat 0 (by omega) (by omega)
    have hn : 0 + min length.toNat ((getFileLength fs (m 0) inode).toNat - (offset.toNat + 0))
        = n := by
      omega
    rw [hn] at hdn hstop
    rw [hr]
    exact ⟨d, hdn, fun j hj => hgood j (Nat.zero_le j) hj, hmem, hstop⟩

/-- Nothing outside the buffer is changed by the bytes of the request. -/
theorem copied_of_not_inSpan {a : Word} {j : ℕ} (ha : ¬ InSpan a buf length.toNat)
    (hj : j ≤ length.toNat) : fs.copied inode offset mem buf length j a = mem a := by
  induction j with
  | zero => exact if_neg ha
  | succ j ih =>
    have hne : a ≠ buf + BitVec.ofNat 32 j := by
      rintro rfl
      exact ha (inSpan_add_ofNat (by omega))
    rw [Fs.copied]
    exact (Memory.store8_of_ne _ _ hne).trans (ih (by omega))

namespace Fs

/-- The size of the image: the boot block, the index nodes and the data blocks. -/
def imageSize (fs : Fs) : ℕ := (1 + fs.numIndexNodes.toNat + fs.numDataBlocks.toNat) * 4096

/-- `a` is in the image, once there is one. -/
def InImage (fs : Fs) (a : Word) : Prop := fs.fsBaseAdr ≠ 0 ∧ InSpan a fs.fsBaseAdr fs.imageSize

/-- The buffer has no byte of the image. -/
def Apart (fs : Fs) (buf length : Word) : Prop := ∀ a, InSpan a buf length.toNat → ¬ fs.InImage a

end Fs

/-! ## What `read_data` reads -/

/-- A word of an index node is in the image. -/
theorem load32_inode (hbase : fs.fsBaseAdr ≠ 0) (hmem : ∀ a, fs.InImage a → mem a = img a)
    (hinode : inode < fs.numIndexNodes) {k : ℕ} (hk : k < 1024) :
    mem.load32 (fs.inodeAddr inode + BitVec.ofNat 32 (4 * k))
      = img.load32 (fs.inodeAddr inode + BitVec.ofNat 32 (4 * k)) := by
  apply Memory.load32_congr
  intro j hj
  apply hmem
  have hlt : inode.toNat < fs.numIndexNodes.toNat := hinode
  have haddr : fs.inodeAddr inode + BitVec.ofNat 32 (4 * k) + BitVec.ofNat 32 j
      = fs.fsBaseAdr + BitVec.ofNat 32 ((inode.toNat + 1) * 4096 + 4 * k + j) := by
    rw [Fs.inodeAddr]
    bv_omega
  rw [haddr]
  refine ⟨hbase, inSpan_add_ofNat ?_⟩
  rw [Fs.imageSize]
  omega

/-- The length of a file is in the image. -/
theorem getFileLength_congr (hbase : fs.fsBaseAdr ≠ 0) (hmem : ∀ a, fs.InImage a → mem a = img a)
    (hinode : inode < fs.numIndexNodes) :
    getFileLength fs mem inode = getFileLength fs img inode := by
  have hload := load32_inode hbase hmem hinode (k := 0) (by omega)
  rw [BitVec.add_zero] at hload
  exact hload

/-- So is a block number of a file that the block table can hold. -/
theorem blockNumber_congr (hbase : fs.fsBaseAdr ≠ 0) (hmem : ∀ a, fs.InImage a → mem a = img a)
    (hinode : inode < fs.numIndexNodes) {p : ℕ} (hp : p < 1023 * 4096) :
    fs.blockNumber mem inode (BitVec.ofNat 32 p / blockSize)
      = fs.blockNumber img inode (BitVec.ofNat 32 p / blockSize) := by
  have hindex : 4 * (BitVec.ofNat 32 p / blockSize + 1) = BitVec.ofNat 32 (4 * (p / 4096 + 1)) := by
    rw [ofNat_div_blockSize (by omega)]
    bv_omega
  rw [Fs.blockNumber, Fs.blockNumber, hindex]
  exact load32_inode hbase hmem hinode (by omega)

/-- And a byte of a block of the image. -/
theorem dataAddr_congr (hbase : fs.fsBaseAdr ≠ 0) (hmem : ∀ a, fs.InImage a → mem a = img a)
    {block : Word} (hblock : block < fs.numDataBlocks) {p : ℕ} (hp : p < 2 ^ 32) :
    mem (fs.dataAddr block (BitVec.ofNat 32 p % blockSize))
      = img (fs.dataAddr block (BitVec.ofNat 32 p % blockSize)) := by
  apply hmem
  have hlt : block.toNat < fs.numDataBlocks.toNat := hblock
  have haddr : fs.dataAddr block (BitVec.ofNat 32 p % blockSize) = fs.fsBaseAdr
      + BitVec.ofNat 32 ((fs.numIndexNodes.toNat + 1 + block.toNat) * 4096 + p % 4096) := by
    rw [Fs.dataAddr, ofNat_mod_blockSize hp]
    bv_omega
  rw [haddr]
  refine ⟨hbase, inSpan_add_ofNat ?_⟩
  rw [Fs.imageSize]
  omega

/-- The loop reads the image as it was. -/
theorem readDataLoopIn_eq (hbase : fs.fsBaseAdr ≠ 0) (hmem : ∀ a, fs.InImage a → mem a = img a)
    (hinode : inode < fs.numIndexNodes) (hapart : fs.Apart buf length)
    (hlen : fileLength.toNat ≤ 1023 * 4096) (hlt : offset.toNat + i < fileLength.toNat)
    (hfuel : i + fuel ≤ length.toNat) :
    readDataLoopIn fs inode fileLength offset buf fuel i mem
      = readDataLoop fs img inode fileLength offset buf fuel i mem := by
  induction fuel generalizing i mem with
  | zero => rfl
  | succ fuel ih =>
    have hpos : offset + BitVec.ofNat 32 i = BitVec.ofNat 32 (offset.toNat + i) := by bv_omega
    have hblock := blockNumber_congr hbase hmem hinode
      (show offset.toNat + i < 1023 * 4096 by omega)
    rw [readDataLoopIn, readDataLoop]
    simp only [hpos, hblock]
    split
    · rfl
    · rename_i hgood
      have hbyte := dataAddr_congr hbase hmem (BitVec.not_le.mp hgood)
        (show offset.toNat + i < 2 ^ 32 by omega)
      rw [hbyte]
      split
      · rfl
      · rename_i hend
        apply ih
        · intro a ha
          -- the byte just stored is one of the buffer
          have hne : a ≠ buf + BitVec.ofNat 32 i := by
            rintro rfl
            exact hapart _ (inSpan_add_ofNat (by omega)) ha
          rw [Memory.store8_of_ne _ _ hne]
          exact hmem a ha
        · have hsmall := fileLength.isLt
          bv_omega
        · omega

/-- **The image is not written**: `read_data` is the same with the image in a memory of its own. -/
theorem readDataIn_eq (hapart : fs.Apart buf length)
    (hlen : inode < fs.numIndexNodes → (getFileLength fs mem inode).toNat ≤ 1023 * 4096) :
    readDataIn fs inode offset mem buf length = readData fs mem inode offset mem buf length := by
  rw [readDataIn, readData]
  by_cases hbase : fs.fsBaseAdr = 0
  · rw [if_pos hbase, if_pos hbase]
  by_cases hinode : fs.numIndexNodes ≤ inode
  · rw [if_neg hbase, if_neg hbase, if_pos hinode, if_pos hinode]
  by_cases hbuf : buf = 0
  · rw [if_neg hbase, if_neg hbase, if_neg hinode, if_neg hinode, if_pos hbuf, if_pos hbuf]
  have hinode' : inode < fs.numIndexNodes := BitVec.not_le.mp hinode
  have hfill : ∀ a, fs.InImage a → mem.fill buf 0 length.toNat a = mem a := by
    intro a ha
    exact if_neg fun hspan => hapart a hspan ha
  rw [if_neg hbase, if_neg hbase, if_neg hinode, if_neg hinode, if_neg hbuf, if_neg hbuf]
  dsimp only
  rw [getFileLength_congr hbase hfill hinode']
  split
  · rfl
  · rename_i hend
    apply readDataLoopIn_eq hbase hfill hinode' hapart (hlen hinode')
    · bv_omega
    · omega

/-! ## The buffer after it -/

section Buffer

variable {d j : ℕ}

theorem view_readMemory_of_lt (hj : j < d) (hd : d ≤ length.toNat) :
    (readMemory fs img inode offset mem buf length d).view buf j
      = fs.fileByte img inode.toNat (offset.toNat + j) := by
  have hlen := length.isLt
  exact Memory.view_patch (Nat.zero_le j) hj (by omega)

theorem view_readMemory_of_le (hd : d ≤ j) (hj : j < length.toNat) :
    (readMemory fs img inode offset mem buf length d).view buf j = 0 := by
  have hlen := length.isLt
  have hoff : (buf + BitVec.ofNat 32 j - buf).toNat = j := by bv_omega
  rw [Memory.view, readMemory, Memory.patch, hoff, if_neg fun h => by omega, Memory.fill,
    if_pos (inSpan_add_ofNat hj)]

theorem readMemory_of_not_inSpan {a : Word} (hd : d ≤ length.toNat)
    (ha : ¬ InSpan a buf length.toNat) :
    readMemory fs img inode offset mem buf length d a = mem a := by
  have ha' : ¬ (a - buf).toNat < length.toNat := ha
  rw [readMemory, Memory.patch, if_neg fun h => by omega, Memory.fill, if_neg ha]

end Buffer

/-- A call without a file system, a file or a buffer. -/
def Fs.Rejects (fs : Fs) (inode buf : Word) : Prop :=
  fs.fsBaseAdr = 0 ∨ fs.numIndexNodes ≤ inode ∨ buf = 0

theorem readData_of_rejects (h : fs.Rejects inode buf) (offset length : Word) (mem : Memory) :
    readData fs img inode offset mem buf length = (error, mem) := by
  rw [readData]
  split_ifs with hbase hinode hbuf
  · rfl
  · rfl
  · rfl
  · exact absurd h (not_or.mpr ⟨hbase, not_or.mpr ⟨hinode, hbuf⟩⟩)

/-- A bad byte of the request, by its place in the file and in the buffer. -/
theorem exists_badBlock_iff {n len : ℕ} (hn : n = min length.toNat (len - offset.toNat)) :
    (∃ p, offset.toNat ≤ p ∧ p < min (offset.toNat + length.toNat) len ∧ fs.BadBlock img inode p) ↔
      ∃ j < n, fs.BadBlock img inode (offset.toNat + j) := by
  constructor
  · rintro ⟨p, hp, hpn, hbad⟩
    refine ⟨p - offset.toNat, by omega, ?_⟩
    rw [Nat.add_sub_cancel' hp]
    exact hbad
  · rintro ⟨j, hj, hbad⟩
    exact ⟨offset.toNat + j, by omega, by omega, hbad⟩

/-- **`read_data` is exact.** For a file that the block table can hold and a buffer apart from the
image, it fails when there is no file system, no such file or no buffer, or when some byte of the
request that the file has is in a block that the image has not; otherwise the buffer has the bytes
of the file and then zero bytes. Outside the buffer nothing changes. -/
theorem readDataIn_exact (fs : Fs) (mem : Memory) (inode offset : Word)
    (hapart : fs.Apart buf length)
    (hlen : inode < fs.numIndexNodes → (getFileLength fs mem inode).toNat ≤ 1023 * 4096) :
    let fileLength := (getFileLength fs mem inode).toNat
    let n := min length.toNat (fileLength - offset.toNat)
    let r := readDataIn fs inode offset mem buf length
    (r.1 = error ↔ fs.fsBaseAdr = 0 ∨ fs.numIndexNodes ≤ inode ∨ buf = 0 ∨
        ∃ p, offset.toNat ≤ p ∧ p < min (offset.toNat + length.toNat) fileLength ∧
          fs.BadBlock mem inode p) ∧
      (r.1 ≠ error → r.1.toNat = n ∧
        (∀ i < n, r.2.view buf i = fs.fileByte mem inode.toNat (offset.toNat + i)) ∧
        ∀ i, n ≤ i → i < length.toNat → r.2.view buf i = 0) ∧
      ∀ a, ¬ InSpan a buf length.toNat → r.2 a = mem a := by
  intro fileLength n r
  have hr : r = readData fs mem inode offset mem buf length := readDataIn_eq hapart hlen
  have hassoc : (fs.fsBaseAdr = 0 ∨ fs.numIndexNodes ≤ inode ∨ buf = 0 ∨
      ∃ p, offset.toNat ≤ p ∧ p < min (offset.toNat + length.toNat) fileLength ∧
        fs.BadBlock mem inode p) ↔
      fs.Rejects inode buf ∨ ∃ j < n, fs.BadBlock mem inode (offset.toNat + j) := by
    rw [exists_badBlock_iff rfl, Fs.Rejects, or_assoc, or_assoc]
  rw [hassoc]
  by_cases h : fs.Rejects inode buf
  · rw [hr, readData_of_rejects h]
    exact ⟨iff_of_true rfl (.inl h), fun hne => absurd rfl hne, fun a _ => rfl⟩
  obtain ⟨hbase, h'⟩ := not_or.mp h
  obtain ⟨hinode, hbuf⟩ := not_or.mp h'
  have hinode' : inode < fs.numIndexNodes := BitVec.not_le.mp hinode
  have hsmall := hlen hinode'
  obtain ⟨d, hdn, hgood, hmem, hstop⟩ :=
    readData_stops mem hbase hinode' hbuf offset length mem
  have hn : n ≤ length.toNat := Nat.min_le_left _ _
  have hn' : (BitVec.ofNat 32 n).toNat = n := by
    rw [BitVec.toNat_ofNat, Nat.mod_eq_of_lt (by omega)]
  rw [hr]
  refine ⟨?_, ?_, ?_⟩
  · rcases hstop with ⟨rfl, hret⟩ | ⟨hlt, hbad, hret⟩
    · rw [hret]
      refine iff_of_false ?_ ?_
      -- a count is never so large that it would be read as -1
      · intro he
        have hval := congrArg BitVec.toNat he
        rw [hn'] at hval
        have hmax : (error : Word).toNat = 2 ^ 32 - 1 := rfl
        omega
      · rintro (hrej | ⟨j, hj, hbad⟩)
        · exact h hrej
        · exact hgood j hj hbad
    · exact iff_of_true hret (.inr ⟨d, hlt, hbad⟩)
  · intro hne
    obtain ⟨rfl, hret⟩ := hstop.resolve_right fun h => hne h.2.2
    rw [hret, hmem]
    refine ⟨hn', ?_, ?_⟩
    · intro i hi
      exact view_readMemory_of_lt hi hn
    · intro i hni hi
      exact view_readMemory_of_le hni hi
  · intro a ha
    rw [hmem]
    exact readMemory_of_not_inSpan (by omega) ha

/-! ## The last bytes of a file -/

theorem sample_apart : (fsInit sampleImage sampleBase).Apart execAddr 4 := by
  have hbase : (fsInit sampleImage sampleBase).fsBaseAdr = 0x410000 := rfl
  have hsize : (fsInit sampleImage sampleBase).imageSize = 12288 := by decide
  have hexec : execAddr = 0x8048000 := rfl
  have hfour : (4 : Word).toNat = 4 := rfl
  rintro a hspan ⟨-, himage⟩
  rw [InSpan, hexec, hfour] at hspan
  rw [InSpan, hbase, hsize] at himage
  bv_omega

/-- Four bytes are asked for where `shell` of the sample image has two left. -/
theorem readDataIn_exact_sample :
    let r := readDataIn (fsInit sampleImage sampleBase) 0 38 sampleImage execAddr 4
    r.1.toNat = 2 ∧ r.2.view execAddr 2 = 0 ∧ r.2.view execAddr 3 = 0 := by
  intro r
  have hlength : (getFileLength (fsInit sampleImage sampleBase) sampleImage 0).toNat = 40 := by
    decide
  have hne : r.1 ≠ error := by decide
  obtain ⟨-, hread, -⟩ := readDataIn_exact (fsInit sampleImage sampleBase) sampleImage 0 38
    sample_apart (fun _ => by rw [hlength]; decide)
  obtain ⟨hret, -, hzero⟩ := hread hne
  rw [hlength] at hret hzero
  exact ⟨hret, hzero 2 (by decide) (by decide), hzero 3 (by decide) (by decide)⟩

end HieUnix
