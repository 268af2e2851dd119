import HieUnix.ReadData
import HieUnix.Lib.Traced

/-!
# What `read_data` reads of the image

`read_data` again, with its reads of the image recorded: the words of the index node and the bytes
of data. The image and the buffer are in one memory, so that the `memset` and the copies may change
the index node. The block numbers are checked, so every byte of data is one of a data block. The
length in the index node is not, and past the 1023 block numbers that an index node has room for the
code goes on with what is in memory behind the block (`readsInside_iff`).
-/

namespace HieUnix

variable {fs : Fs} {mem : Memory} {inode fileLength offset buf length : Word} {fuel i j p : ℕ}

/-- `readDataLoopIn` with its reads of the image recorded. -/
def readDataLoopR (fs : Fs) (inode fileLength offset buf : Word) :
    ℕ → ℕ → Memory → Traced (Word × Memory)
  | 0, i, mem => pure (BitVec.ofNat 32 i, mem)
  | fuel + 1, i, mem => do
    let pos := offset + BitVec.ofNat 32 i
    let blockNumber ← Traced.load32 mem (fs.inodeAddr inode + 4 * (pos / blockSize + 1))
    if fs.numDataBlocks ≤ blockNumber then pure (error, mem)
    else do
      let c ← Traced.load mem (fs.dataAddr blockNumber (pos % blockSize))
      let mem := mem.store8 (buf + BitVec.ofNat 32 i) c
      if fileLength ≤ pos + 1 then pure (BitVec.ofNat 32 (i + 1), mem)
      else readDataLoopR fs inode fileLength offset buf fuel (i + 1) mem

/-- `read_data` with its reads of the image recorded. -/
def readDataR (fs : Fs) (inode offset : Word) (mem : Memory) (buf length : Word) :
    Traced (Word × Memory) :=
  if fs.fsBaseAdr = 0 then pure (error, mem)
  else if fs.numIndexNodes ≤ inode then pure (error, mem)
  else if buf = 0 then pure (error, mem)
  else do
    let mem := mem.fill buf 0 length.toNat
    let fileLength ← Traced.load32 mem (fs.inodeAddr inode)
    if fileLength ≤ offset then pure (0, mem)
    else readDataLoopR fs inode fileLength offset buf length.toNat 0 mem

theorem val_readDataLoopR (fs : Fs) (inode fileLength offset buf : Word) (fuel i : ℕ)
    (mem : Memory) : (readDataLoopR fs inode fileLength offset buf fuel i mem).val
      = readDataLoopIn fs inode fileLength offset buf fuel i mem := by
  induction fuel generalizing i mem with
  | zero => rfl
  | succ fuel ih =>
    rw [readDataLoopR, readDataLoopIn, Traced.val_bind, Traced.val_load32, ← Fs.blockNumber]
    dsimp only
    split
    · rfl
    · rw [Traced.val_bind, Traced.val_load, ← ih]
      split <;> rfl

theorem val_readDataR (fs : Fs) (inode offset : Word) (mem : Memory) (buf length : Word) :
    (readDataR fs inode offset mem buf length).val
      = readDataIn fs inode offset mem buf length := by
  unfold readDataR readDataIn
  split
  · rfl
  · split
    · rfl
    · split
      · rfl
      · rw [Traced.val_bind, Traced.val_load32]
        dsimp only
        rw [← val_readDataLoopR, getFileLength]
        split <;> rfl

/-! ## Words of an index node and bytes of a block -/

namespace Fs

/-- The word at `a` is in the block of an index node. -/
def WordOfInode (fs : Fs) (inode a : Word) : Prop :=
  ∀ i < 4, InSpan (a + BitVec.ofNat 32 i) (fs.inodeAddr inode) blockSize.toNat

/-- The byte at `a` is in a data block. -/
def ByteOfBlock (fs : Fs) (a : Word) : Prop :=
  ∃ block < fs.numDataBlocks, InSpan a (fs.dataAddr block 0) blockSize.toNat

/-- Where the number of the block of byte `p` is looked up. -/
def tableAddr (fs : Fs) (inode : Word) (p : ℕ) : Word :=
  fs.inodeAddr inode + 4 * (BitVec.ofNat 32 p / blockSize + 1)

/-- Where byte `p` of a file is looked up. -/
def byteAddr (fs : Fs) (mem : Memory) (inode : Word) (p : ℕ) : Word :=
  fs.dataAddr (fs.fileBlock mem inode.toNat (p / 4096)) (BitVec.ofNat 32 p % blockSize)

/-- **What `read_data` may read**: words of the index node, and bytes of data blocks. -/
def ReadsInside (fs : Fs) (inode offset : Word) (mem : Memory) (buf length : Word) : Prop :=
  let r := readDataR fs inode offset mem buf length
  (∀ a, (a, 4) ∈ r.spans → fs.WordOfInode inode a) ∧ ∀ a, (a, 1) ∈ r.spans → fs.ByteOfBlock a

end Fs

/-- The block table has 1023 entries. -/
theorem wordOfInode_tableAddr (hp : p < 2 ^ 32) :
    fs.WordOfInode inode (fs.tableAddr inode p) ↔ p < 1023 * 4096 := by
  have hoff : ∀ i < 4, (fs.tableAddr inode p + BitVec.ofNat 32 i - fs.inodeAddr inode).toNat
      = 4 * (p / 4096 + 1) + i := by
    intro i hi
    rw [Fs.tableAddr, ofNat_div_blockSize hp]
    bv_omega
  have hsize : blockSize.toNat = 4096 := rfl
  constructor
  · intro h
    have hlast := h 3 (by omega)
    rw [InSpan, hoff 3 (by omega), hsize] at hlast
    omega
  · intro hlt i hi
    rw [InSpan, hoff i hi, hsize]
    omega

theorem wordOfInode_inodeAddr (fs : Fs) (inode : Word) :
    fs.WordOfInode inode (fs.inodeAddr inode) := by
  intro i hi
  have hsize : blockSize.toNat = 4096 := rfl
  apply inSpan_add_ofNat
  omega

theorem byteOfBlock_byteAddr (hp : p < 2 ^ 32) (hgood : ¬ fs.BadBlock mem inode p) :
    fs.ByteOfBlock (fs.byteAddr mem inode p) := by
  refine ⟨_, BitVec.not_le.mp hgood, ?_⟩
  have haddr : fs.byteAddr mem inode p
      = fs.dataAddr (fs.fileBlock mem inode.toNat (p / 4096)) 0 + BitVec.ofNat 32 (p % 4096) := by
    rw [Fs.byteAddr, Fs.dataAddr, Fs.dataAddr, ofNat_mod_blockSize hp]
    bv_omega
  rw [haddr]
  exact inSpan_add_ofNat (Nat.mod_lt p (by decide))

/-! ## The reads -/

/-- The loop of `read_data` comes from byte `i` of the request to byte `j` when no byte between has
a bad block as it comes to it. -/
def Fs.Reaches (fs : Fs) (inode offset : Word) (mem : Memory) (buf length : Word) (i j : ℕ) :
    Prop :=
  i ≤ j ∧ ∀ k, i ≤ k → k < j →
    ¬ fs.BadBlock (fs.copied inode offset mem buf length k) inode (offset.toNat + k)

/-- The reads of the loop from `i` on: for each byte that it comes to the number of its block, and
the byte when the block is good. -/
theorem mem_spans_readDataLoopR (hlt : offset.toNat + i < fileLength.toNat)
    (hfuel : i + fuel < 2 ^ 32) {s : Word × ℕ} :
    let m := fs.copied inode offset mem buf length
    s ∈ (readDataLoopR fs inode fileLength offset buf fuel i (m i)).spans ↔
      ∃ j, fs.Reaches inode offset mem buf length i j ∧
        offset.toNat + j < min (offset.toNat + i + fuel) fileLength.toNat ∧
        (s = (fs.tableAddr inode (offset.toNat + j), 4) ∨
          ¬ fs.BadBlock (m j) inode (offset.toNat + j) ∧
            s = (fs.byteAddr (m j) inode (offset.toNat + j), 1)) := by
  intro m
  induction fuel generalizing i with
  | zero =>
    refine iff_of_false (Traced.not_mem_spans_pure _ _) ?_
    rintro ⟨j, ⟨hj, -⟩, hend, -⟩
    omega
  | succ fuel ih =>
    have hlen := fileLength.isLt
    have hp : offset.toNat + i < 2 ^ 32 := by omega
    have hpos : offset + BitVec.ofNat 32 i = BitVec.ofNat 32 (offset.toNat + i) := by bv_omega
    have hself : fs.Reaches inode offset mem buf length i i :=
      ⟨Nat.le_refl _, fun k h1 h2 => absurd h2 (Nat.not_lt.mpr h1)⟩
    have hblock : fs.blockNumber (m i) inode (BitVec.ofNat 32 (offset.toNat + i) / blockSize)
        = fs.fileBlock (m i) inode.toNat ((offset.toNat + i) / 4096) :=
      blockNumber_eq_fileBlock hp
    rw [readDataLoopR, Traced.mem_spans_bind, Traced.mem_spans_load32, Traced.val_load32, hpos,
      ← Fs.blockNumber, hblock, ← Fs.tableAddr]
    by_cases hbad : fs.numDataBlocks ≤ fs.fileBlock (m i) inode.toNat ((offset.toNat + i) / 4096)
    -- a bad block ends the loop
    · rw [if_pos hbad]
      constructor
      · intro h
        have hs := h.resolve_right (Traced.not_mem_spans_pure _ _)
        exact ⟨i, hself, by omega, .inl hs⟩
      · rintro ⟨j, ⟨hij, hgood⟩, -, hs⟩
        obtain rfl : j = i := by
          by_contra hne
          exact hgood i (Nat.le_refl _) (by omega) hbad
        exact .inl (hs.resolve_right fun h => h.1 hbad)
    have hbyte : m i (fs.byteAddr (m i) inode (offset.toNat + i))
        = fs.fileByte (m i) inode.toNat (offset.toNat + i) := dataAddr_eq_fileByte hp
    have hnext : (m i).store8 (buf + BitVec.ofNat 32 i)
        (m i (fs.byteAddr (m i) inode (offset.toNat + i))) = m (i + 1) := by
      rw [hbyte]
      rfl
    rw [if_neg hbad, Traced.mem_spans_bind, Traced.mem_spans_load, ← Fs.byteAddr]
    dsimp only
    rw [Traced.val_load, hnext]
    by_cases hend : fileLength.toNat ≤ offset.toNat + i + 1
    · rw [if_pos (by bv_omega)]
      constructor
      · rintro (hs | hs | hs)
        · exact ⟨i, hself, by omega, .inl hs⟩
        · exact ⟨i, hself, by omega, .inr ⟨hbad, hs⟩⟩
        · exact absurd hs (Traced.not_mem_spans_pure _ _)
      · rintro ⟨j, ⟨hij, -⟩, hjend, hs⟩
        obtain rfl : j = i := by omega
        exact hs.imp_right fun h => .inl h.2
    · rw [if_neg (by bv_omega), ih (by omega) (by omega)]
      constructor
      · rintro (hs | hs | ⟨j, ⟨hij, hgood⟩, hjend, hs⟩)
        · exact ⟨i, hself, by omega, .inl hs⟩
        · exact ⟨i, hself, by omega, .inr ⟨hbad, hs⟩⟩
        · refine ⟨j, ⟨by omega, ?_⟩, by omega, hs⟩
          intro k h1 h2
          by_cases hk : k = i
          · rw [hk]
            exact hbad
          · exact hgood k (by omega) h2
      · rintro ⟨j, ⟨hij, hgood⟩, hjend, hs⟩
        by_cases hji : j = i
        · rw [hji] at hs
          exact hs.imp_right fun h => .inl h.2
        · exact .inr (.inr ⟨j, ⟨by omega, fun k h1 h2 => hgood k (by omega) h2⟩, by omega, hs⟩)

/-- The reads of `read_data`: the length of the file, and those of the loop. -/
theorem mem_spans_readDataR (h : ¬ fs.Rejects inode buf) {s : Word × ℕ} :
    let m := fs.copied inode offset mem buf length
    s ∈ (readDataR fs inode offset mem buf length).spans ↔
      s = (fs.inodeAddr inode, 4) ∨ ∃ j, fs.Reaches inode offset mem buf length 0 j ∧
        offset.toNat + j
          < min (offset.toNat + length.toNat) (getFileLength fs (m 0) inode).toNat ∧
        (s = (fs.tableAddr inode (offset.toNat + j), 4) ∨
          ¬ fs.BadBlock (m j) inode (offset.toNat + j) ∧
            s = (fs.byteAddr (m j) inode (offset.toNat + j), 1)) := by
  intro m
  obtain ⟨hbase, h'⟩ := not_or.mp h
  obtain ⟨hinode, hbuf⟩ := not_or.mp h'
  have hlen := length.isLt
  rw [readDataR, if_neg hbase, if_neg hinode, if_neg hbuf, Traced.mem_spans_bind,
    Traced.mem_spans_load32, Traced.val_load32, ← getFileLength]
  apply or_congr_right
  change s ∈ (if getFileLength fs (m 0) inode ≤ offset then pure (0, m 0)
    else readDataLoopR fs inode (getFileLength fs (m 0) inode) offset buf length.toNat 0
      (m 0) : Traced (Word × Memory)).spans ↔ _
  by_cases hend : (getFileLength fs (m 0) inode).toNat ≤ offset.toNat
  · rw [if_pos (by bv_omega)]
    refine iff_of_false (Traced.not_mem_spans_pure _ _) ?_
    rintro ⟨j, -, hjend, -⟩
    omega
  · rw [if_neg (by bv_omega)]
    exact mem_spans_readDataLoopR (by omega) (by omega)

/-- A call that is turned away reads nothing. -/
theorem readDataR_of_rejects (h : fs.Rejects inode buf) (offset length : Word) (mem : Memory) :
    readDataR fs inode offset mem buf length = pure (error, mem) := by
  rw [readDataR]
  split_ifs with hbase hinode hbuf
  · rfl
  · rfl
  · rfl
  · exact absurd h (not_or.mpr ⟨hbase, not_or.mpr ⟨hinode, hbuf⟩⟩)

/-! ## A buffer apart from the index node -/

/-- The buffer has no byte of the index node. -/
def Fs.AvoidsNode (fs : Fs) (inode buf length : Word) : Prop :=
  ∀ a, InSpan a buf length.toNat → ¬ InSpan a (fs.inodeAddr inode) blockSize.toNat

/-- The words of the index node stay while the request is copied. -/
theorem load32_copied (offset : Word) (mem : Memory) (h : fs.AvoidsNode inode buf length)
    (hj : j ≤ length.toNat) {k : ℕ} (hk : k < 1024) :
    (fs.copied inode offset mem buf length j).load32 (fs.inodeAddr inode + BitVec.ofNat 32 (4 * k))
      = mem.load32 (fs.inodeAddr inode + BitVec.ofNat 32 (4 * k)) := by
  have hsize : blockSize.toNat = 4096 := rfl
  refine Memory.load32_congr fun n hn => copied_of_not_inSpan (fun hspan => h _ hspan ?_) hj
  have hadd : fs.inodeAddr inode + BitVec.ofNat 32 (4 * k) + BitVec.ofNat 32 n
      = fs.inodeAddr inode + BitVec.ofNat 32 (4 * k + n) := by
    bv_omega
  rw [hadd]
  exact inSpan_add_ofNat (by omega)

theorem getFileLength_copied (h : fs.AvoidsNode inode buf length) (hj : j ≤ length.toNat) :
    getFileLength fs (fs.copied inode offset mem buf length j) inode
      = getFileLength fs mem inode := by
  have hload := load32_copied offset mem h hj (k := 0) (by omega)
  rw [BitVec.add_zero] at hload
  exact hload

theorem badBlock_copied (h : fs.AvoidsNode inode buf length) (hj : j ≤ length.toNat)
    (hp : p < 1023 * 4096) :
    fs.BadBlock (fs.copied inode offset mem buf length j) inode p ↔ fs.BadBlock mem inode p := by
  have haddr : BitVec.ofNat 32 (fs.fsBaseAdr.toNat + (inode.toNat + 1) * 4096 + 4 * (p / 4096 + 1))
      = fs.inodeAddr inode + BitVec.ofNat 32 (4 * (p / 4096 + 1)) := by
    have hsize : blockSize = 4096 := rfl
    rw [Fs.inodeAddr, hsize]
    bv_omega
  rw [Fs.BadBlock, Fs.BadBlock, Fs.fileBlock, Fs.fileBlock, haddr,
    load32_copied offset mem h hj (by omega)]

/-- What is to hold for `read_data` to stay inside, when it comes to the bytes of the request with
the memories `m`: the request or the file ends where the block table does, or a bad block comes
before. -/
def Fs.EndsInside (fs : Fs) (inode offset length : Word) (m : ℕ → Memory) : Prop :=
  min (offset.toNat + length.toNat) (getFileLength fs (m 0) inode).toNat
      ≤ max offset.toNat (1023 * 4096) ∨
    ∃ j < length.toNat, offset.toNat + j < 1023 * 4096 ∧
      fs.BadBlock (m j) inode (offset.toNat + j)

/-- With a buffer apart from the index node, that is so in the image before the call. -/
theorem endsInside_copied_iff (h : fs.AvoidsNode inode buf length) :
    fs.EndsInside inode offset length (fs.copied inode offset mem buf length) ↔
      fs.EndsInside inode offset length fun _ => mem := by
  have hbad : ∀ j < length.toNat, offset.toNat + j < 1023 * 4096 →
      (fs.BadBlock (fs.copied inode offset mem buf length j) inode (offset.toNat + j) ↔
        fs.BadBlock mem inode (offset.toNat + j)) :=
    fun j hj hp => badBlock_copied h (Nat.le_of_lt hj) hp
  rw [Fs.EndsInside, Fs.EndsInside, getFileLength_copied h (Nat.zero_le _)]
  apply or_congr_right
  constructor
  · rintro ⟨j, hj, hp, hb⟩
    exact ⟨j, hj, hp, (hbad j hj hp).mp hb⟩
  · rintro ⟨j, hj, hp, hb⟩
    exact ⟨j, hj, hp, (hbad j hj hp).mpr hb⟩

/-- **When `read_data` stays inside**, for any buffer, also one with bytes of the image. Every byte
of data that it reads is one of a data block. The words that it reads are in the block of the index
node if and only if the call is turned away, the part of the request that the file has (by the
length that the `memset` leaves) ends where the block table does, or some byte of the request before
that end has a bad block when the loop comes to it. Unless the buffer has bytes of the index node,
the length and the table are those before the call. -/
theorem readsInside_iff (fs : Fs) (inode offset : Word) (mem : Memory) (length : Word)
    (hbuf : buf ≠ 0) :
    (fs.ReadsInside inode offset mem buf length ↔
      fs.fsBaseAdr = 0 ∨ fs.numIndexNodes ≤ inode ∨
        fs.EndsInside inode offset length (fs.copied inode offset mem buf length)) ∧
    (fs.AvoidsNode inode buf length →
      (fs.ReadsInside inode offset mem buf length ↔
        fs.fsBaseAdr = 0 ∨ fs.numIndexNodes ≤ inode ∨
          fs.EndsInside inode offset length fun _ => mem)) := by
  have hmain : fs.ReadsInside inode offset mem buf length ↔
      fs.fsBaseAdr = 0 ∨ fs.numIndexNodes ≤ inode ∨
        fs.EndsInside inode offset length (fs.copied inode offset mem buf length) := by
    have hfile := (getFileLength fs (fs.copied inode offset mem buf length 0) inode).isLt
    by_cases hrej : fs.Rejects inode buf
    · refine iff_of_true ?_ ?_
      · rw [Fs.ReadsInside, readDataR_of_rejects hrej]
        exact ⟨fun a ha => absurd ha (Traced.not_mem_spans_pure _ _),
          fun a ha => absurd ha (Traced.not_mem_spans_pure _ _)⟩
      · rcases hrej with h | h | h
        · exact .inl h
        · exact .inr (.inl h)
        · exact absurd h hbuf
    obtain ⟨hbase, h'⟩ := not_or.mp hrej
    obtain ⟨hinode, -⟩ := not_or.mp h'
    rw [or_iff_right hbase, or_iff_right hinode]
    constructor
    · intro h
      by_contra hnot
      obtain ⟨hpast, hgood⟩ := not_or.mp hnot
      -- the first byte of the request that has no entry in the block table
      obtain ⟨j, hj⟩ : ∃ j, j = max offset.toNat (1023 * 4096) - offset.toNat := ⟨_, rfl⟩
      have hreach : fs.Reaches inode offset mem buf length 0 j := by
        refine ⟨Nat.zero_le j, ?_⟩
        intro k _ hk hbad
        exact hgood ⟨k, by omega, by omega, hbad⟩
      have hmem : (fs.tableAddr inode (offset.toNat + j), 4)
          ∈ (readDataR fs inode offset mem buf length).spans :=
        (mem_spans_readDataR hrej).mpr (.inr ⟨j, hreach, by omega, .inl rfl⟩)
      have hword := (wordOfInode_tableAddr (by omega)).mp (h.1 _ hmem)
      omega
    · intro h
      constructor
      · intro a ha
        rcases (mem_spans_readDataR hrej).mp ha with hs | ⟨j, ⟨-, hgood⟩, hjend, hs | ⟨-, hs⟩⟩
        · rw [(Prod.mk.inj hs).1]
          exact wordOfInode_inodeAddr fs inode
        · rw [(Prod.mk.inj hs).1]
          apply (wordOfInode_tableAddr (by omega)).mpr
          by_contra hpast
          rcases h with h | ⟨k, hk, hp, hbad⟩
          · omega
          · exact hgood k (Nat.zero_le k) (by omega) hbad
        · exact absurd (Prod.mk.inj hs).2 (by decide)
      · intro a ha
        rcases (mem_spans_readDataR hrej).mp ha with hs | ⟨j, -, hjend, hs | ⟨hgood, hs⟩⟩
        · exact absurd (Prod.mk.inj hs).2 (by decide)
        · exact absurd (Prod.mk.inj hs).2 (by decide)
        · rw [(Prod.mk.inj hs).1]
          exact byteOfBlock_byteAddr (by omega) hgood
  refine ⟨hmain, fun h => ?_⟩
  rw [hmain, endsInside_copied_iff h]

/-! ## A length that is not one of the format -/

/-- The sample image with 4 MB added to the length of `shell`. -/
def sampleLong : Memory := sampleImage.store8 (sampleBase + 4098) 0x40

/-- The last byte that the block table covers is followed by one whose block number is looked up in
the first data block. -/
theorem not_readsInside_sampleLong :
    ¬ (fsInit sampleLong sampleBase).ReadsInside 0 0x3FF000 sampleLong execAddr 1 := by
  intro h
  have hmem : (sampleBase + 8192, 4) ∈ (readDataR (fsInit sampleLong sampleBase) 0 0x3FF000
      sampleLong execAddr 1).spans := by
    decide
  have hword := h.1 _ hmem 0 (by decide)
  revert hword
  decide

/-- The same read into the length of the file itself: the `memset` makes the file empty. -/
theorem readsInside_iff_sample :
    (fsInit sampleLong sampleBase).ReadsInside 0 0x3FF000 sampleLong (sampleBase + 4098) 1 :=
  (readsInside_iff (fsInit sampleLong sampleBase) 0 0x3FF000 sampleLong 1
    (by decide)).1.mpr (.inr (.inr (.inl (by decide))))

end HieUnix
