import HieUnix.ReadData

/-!
# Regular files through descriptors

`file_read` adds what `read_data` returns to the position of the descriptor, also when that is the
error code: a read that fails moves the position back by one (`keepsDescriptor_iff`, for any buffer,
with the image and the buffer in one memory). `file_open`
keeps the inode number as a pointer to the index node, and `file_read` computes it back from the
pointer. Of a number of 32 bits 20 survive that, so that a number that no index node has may come
back as one of an index node that exists (`readsByInode_iff`).
-/

namespace HieUnix

variable {fs : Fs} {img mem : Memory} {inode offset buf length nbytes : Word} {fd : Fd}

/-! ## When `read_data` fails -/

/-- With all of memory but one byte as the buffer, the `memset` clears a byte of every word. -/
theorem count_lt (fs : Fs) (inode offset : Word) (mem : Memory) (buf length : Word) :
    min length.toNat ((getFileLength fs (fs.copied inode offset mem buf length 0) inode).toNat
      - offset.toNat) < 2 ^ 32 - 1 := by
  by_contra hmax
  have hlen := length.isLt
  have hlt := (getFileLength fs (fs.copied inode offset mem buf length 0) inode).isLt
  have hlength : length.toNat = 2 ^ 32 - 1 := by omega
  have hword : (mem.fill buf 0 length.toNat).load32 (fs.inodeAddr inode) = BitVec.allOnes 32 := by
    apply BitVec.eq_of_toNat_eq
    rw [BitVec.toNat_allOnes]
    change (getFileLength fs (fs.copied inode offset mem buf length 0) inode).toNat = _
    omega
  have hset : ∀ a, (mem.fill buf 0 length.toNat) a ≠ 0 → a = buf - 1 := by
    intro a ha
    have hspan : ¬ InSpan a buf length.toNat := fun h => ha (if_pos h)
    rw [InSpan, hlength] at hspan
    bv_omega
  have h0 : fs.inodeAddr inode = buf - 1 := by
    apply hset
    rw [← Memory.extractLsb'_zero_load32 (mem.fill buf 0 length.toNat), hword]
    decide
  have h1 : fs.inodeAddr inode + 1 = buf - 1 := by
    apply hset
    rw [← Memory.extractLsb'_eight_load32 (mem.fill buf 0 length.toNat), hword]
    decide
  bv_omega

/-- The calls of `read_data` that return -1: there is nothing to read from or no buffer, or a byte
of the request that the file has is in a bad block when the loop comes to it. The file is as long as
the `memset` leaves it. -/
def Fs.ReadFails (fs : Fs) (inode offset : Word) (mem : Memory) (buf length : Word) : Prop :=
  let m := fs.copied inode offset mem buf length
  fs.Rejects inode buf ∨
    ∃ j < min length.toNat ((getFileLength fs (m 0) inode).toNat - offset.toNat),
      fs.BadBlock (m j) inode (offset.toNat + j)

theorem readDataIn_of_rejects (h : fs.Rejects inode buf) (offset length : Word) (mem : Memory) :
    readDataIn fs inode offset mem buf length = (error, mem) := by
  rw [readDataIn]
  split_ifs with hbase hinode hbuf
  · rfl
  · rfl
  · rfl
  · exact absurd h (not_or.mpr ⟨hbase, not_or.mpr ⟨hinode, hbuf⟩⟩)

theorem readDataIn_eq_error_iff :
    (readDataIn fs inode offset mem buf length).1 = error ↔
      fs.ReadFails inode offset mem buf length := by
  by_cases hrej : fs.Rejects inode buf
  · rw [readDataIn_of_rejects hrej]
    exact iff_of_true rfl (.inl hrej)
  obtain ⟨hbase, h'⟩ := not_or.mp hrej
  obtain ⟨hinode, hbuf⟩ := not_or.mp h'
  obtain ⟨d, hdn, hgood, -, hstop⟩ :=
    readDataIn_stops mem hbase (BitVec.not_le.mp hinode) hbuf offset length
  rw [Fs.ReadFails, or_iff_right hrej]
  rcases hstop with ⟨rfl, hret⟩ | ⟨hlt, hbad, hret⟩
  · have hcount := count_lt fs inode offset mem buf length
    rw [hret]
    refine iff_of_false ?_ ?_
    · intro h
      have hval := congrArg BitVec.toNat h
      rw [BitVec.toNat_ofNat, Nat.mod_eq_of_lt (by omega)] at hval
      have hmax : (error : Word).toNat = 2 ^ 32 - 1 := rfl
      omega
    · rintro ⟨j, hj, hbad⟩
      exact hgood j hj hbad
  · exact iff_of_true hret ⟨d, hlt, hbad⟩

/-- With a buffer apart from the image and a file that the block table can hold, that is so by the
image before the call. -/
theorem readFails_iff_of_apart (hapart : fs.Apart buf length)
    (hlen : inode < fs.numIndexNodes → (getFileLength fs mem inode).toNat ≤ 1023 * 4096) :
    fs.ReadFails inode offset mem buf length ↔
      fs.Rejects inode buf ∨
        ∃ p, offset.toNat ≤ p ∧
          p < min (offset.toNat + length.toNat) (getFileLength fs mem inode).toNat ∧
          fs.BadBlock mem inode p := by
  obtain ⟨hfails, -⟩ := readDataIn_exact fs mem inode offset hapart hlen
  rw [← readDataIn_eq_error_iff, hfails, Fs.Rejects, or_assoc, or_assoc]

/-! ## A failed `file_read` -/

/-- The inode number that `file_read` computes from the descriptor. -/
def Fs.inodeOf (fs : Fs) (fd : Fd) : Word := (fd.inodeP - fs.fsBaseAdr) / blockSize - 1

/-- `file_read` of an open file is `read_data`, and the position moves by what it returns. -/
theorem fileRead_of_open (hflags : fd.flags = 1) (hinodeP : fd.inodeP ≠ 0) (mem : Memory)
    (buf nbytes : Word) :
    fileRead fs img fd mem buf nbytes
      = let r := readData fs img (fs.inodeOf fd) fd.filePos mem buf nbytes
        (r.1, { fd with filePos := fd.filePos + r.1 }, r.2) := by
  have hopen : ¬ (fd.flags ≠ 1 ∨ fd.inodeP = 0) := fun h => h.elim (fun h => h hflags) hinodeP
  rw [fileRead, if_neg hopen]
  rfl

theorem fileRead_of_closed (h : fd.flags ≠ 1 ∨ fd.inodeP = 0) (mem : Memory) (buf nbytes : Word) :
    fileRead fs img fd mem buf nbytes = (error, fd, mem) := by
  rw [fileRead, if_pos h]

/-- `file_read`, when the image is in the memory of the buffer. -/
def fileReadIn (fs : Fs) (fd : Fd) (mem : Memory) (buf nbytes : Word) : Word × Fd × Memory :=
  if fd.flags ≠ 1 ∨ fd.inodeP = 0 then (error, fd, mem)
  else
    let node := (fd.inodeP - fs.fsBaseAdr) / blockSize - 1
    let (bytesRead, mem) := readDataIn fs node fd.filePos mem buf nbytes
    (bytesRead, { fd with filePos := fd.filePos + bytesRead }, mem)

theorem fileReadIn_of_open (hflags : fd.flags = 1) (hinodeP : fd.inodeP ≠ 0) (mem : Memory)
    (buf nbytes : Word) :
    fileReadIn fs fd mem buf nbytes
      = let r := readDataIn fs (fs.inodeOf fd) fd.filePos mem buf nbytes
        (r.1, { fd with filePos := fd.filePos + r.1 }, r.2) := by
  have hopen : ¬ (fd.flags ≠ 1 ∨ fd.inodeP = 0) := fun h => h.elim (fun h => h hflags) hinodeP
  rw [fileReadIn, if_neg hopen]
  rfl

theorem fileReadIn_of_closed (h : fd.flags ≠ 1 ∨ fd.inodeP = 0) (mem : Memory)
    (buf nbytes : Word) : fileReadIn fs fd mem buf nbytes = (error, fd, mem) := by
  rw [fileReadIn, if_pos h]

/-- With a buffer apart from the image it is the same with the image in a memory of its own. -/
theorem fileReadIn_eq (hapart : fs.Apart buf nbytes)
    (hlen : fs.inodeOf fd < fs.numIndexNodes →
      (getFileLength fs mem (fs.inodeOf fd)).toNat ≤ 1023 * 4096) :
    fileReadIn fs fd mem buf nbytes = fileRead fs mem fd mem buf nbytes := by
  by_cases hclosed : fd.flags ≠ 1 ∨ fd.inodeP = 0
  · rw [fileReadIn_of_closed hclosed, fileRead_of_closed hclosed]
  · obtain ⟨hflags, hinodeP⟩ := not_or.mp hclosed
    rw [fileReadIn_of_open (not_not.mp hflags) hinodeP,
      fileRead_of_open (not_not.mp hflags) hinodeP, readDataIn_eq hapart hlen]

/-- A `file_read` that returns -1 leaves the descriptor as it was, and the same call fails again,
whatever has happened outside the image in between. -/
def KeepsDescriptor (fs : Fs) (fd : Fd) (mem : Memory) (buf nbytes : Word) : Prop :=
  let r := fileReadIn fs fd mem buf nbytes
  r.1 = error → r.2.1 = fd ∧
    ∀ mem', (∀ a, fs.InImage a → mem' a = r.2.2 a) →
      (fileReadIn fs r.2.1 mem' buf nbytes).1 = error

/-- **A failed read moves the position.** For any buffer, also one with bytes of the image, the
descriptor is kept if and only if the file is not open, or `read_data` does not fail. -/
theorem keepsDescriptor_iff (fs : Fs) (fd : Fd) (mem : Memory) (buf nbytes : Word) :
    KeepsDescriptor fs fd mem buf nbytes ↔
      fd.flags ≠ 1 ∨ fd.inodeP = 0 ∨
        ¬ fs.ReadFails (fs.inodeOf fd) fd.filePos mem buf nbytes := by
  rw [← or_assoc]
  by_cases hclosed : fd.flags ≠ 1 ∨ fd.inodeP = 0
  · refine iff_of_true ?_ (.inl hclosed)
    rw [KeepsDescriptor, fileReadIn_of_closed hclosed]
    exact fun _ => ⟨rfl, fun mem' _ =>
      congrArg Prod.fst (fileReadIn_of_closed hclosed mem' buf nbytes)⟩
  rw [or_iff_right hclosed, KeepsDescriptor]
  obtain ⟨hflags, hinodeP⟩ := not_or.mp hclosed
  rw [fileReadIn_of_open (not_not.mp hflags) hinodeP]
  dsimp only
  rw [← readDataIn_eq_error_iff]
  constructor
  · intro h herr
    -- the position is one less than it was
    have hpos := congrArg Fd.filePos (h herr).1
    dsimp only at hpos
    rw [herr] at hpos
    bv_omega
  · intro hok herr
    exact absurd herr hok

/-- The sample image with a bad block in `shell`. -/
def sampleBad : Memory := sampleImage.store8 (sampleBase + 4100) 1

/-- Reading `shell` fails, and the next read finds the end of the file. -/
theorem not_keepsDescriptor_sampleBad :
    fileOpen (fsInit sampleBad sampleBase) sampleBad Fd.closed (cstr shell)
        = (0, openedFile (fsInit sampleBad sampleBase) 0 0) ∧
      ¬ KeepsDescriptor (fsInit sampleBad sampleBase)
        (openedFile (fsInit sampleBad sampleBase) 0 0) sampleBad execAddr 4 := by
  refine ⟨by decide, ?_⟩
  intro h
  have hkept := (h (by decide)).2 _ fun _ _ => rfl
  revert hkept
  decide

/-! ## The inode number through the descriptor -/

/-- The copy loop of `read_data` uses the inode number for the address of the index node only. -/
theorem readDataLoop_congr {inode' : Word} (h : fs.inodeAddr inode = fs.inodeAddr inode')
    (fileLength offset buf : Word) (fuel i : ℕ) (mem : Memory) :
    readDataLoop fs img inode fileLength offset buf fuel i mem
      = readDataLoop fs img inode' fileLength offset buf fuel i mem := by
  induction fuel generalizing i mem with
  | zero => rfl
  | succ fuel ih =>
    have hblock : fs.blockNumber img inode = fs.blockNumber img inode' := by
      funext k
      rw [Fs.blockNumber, Fs.blockNumber, h]
    rw [readDataLoop, readDataLoop, hblock]
    simp only [ih]

theorem readData_congr {inode' : Word} (h : fs.inodeAddr inode = fs.inodeAddr inode')
    (hlt : inode < fs.numIndexNodes ↔ inode' < fs.numIndexNodes) (offset : Word) (mem : Memory)
    (buf length : Word) :
    readData fs img inode offset mem buf length = readData fs img inode' offset mem buf length := by
  rw [readData, readData]
  by_cases hinode : inode < fs.numIndexNodes
  · rw [if_neg (BitVec.not_le.mpr hinode), if_neg (BitVec.not_le.mpr (hlt.mp hinode)),
      getFileLength, getFileLength, h]
    simp only [readDataLoop_congr h]
  · rw [if_pos (BitVec.not_lt.mp hinode), if_pos (BitVec.not_lt.mp fun h => hinode (hlt.mpr h))]

/-- An empty read succeeds when there is a file. -/
theorem readData_zero (hbase : fs.fsBaseAdr ≠ 0) (hbuf : buf ≠ 0) (offset : Word) (mem : Memory) :
    (readData fs img inode offset mem buf 0).1 = 0 ↔ inode < fs.numIndexNodes := by
  have herr : (error : Word) ≠ 0 := by decide
  rw [readData, if_neg hbase, if_neg hbuf]
  by_cases hinode : fs.numIndexNodes ≤ inode
  · rw [if_pos hinode]
    exact iff_of_false herr (BitVec.not_lt.mpr hinode)
  · rw [if_neg hinode]
    refine iff_of_true ?_ (BitVec.not_le.mp hinode)
    dsimp only
    split <;> rfl

/-- How far the block of an index node is from the image, as the pointers are subtracted. -/
theorem Fs.toNat_inodeAddr_sub (fs : Fs) (inode : Word) :
    (fs.inodeAddr inode - fs.fsBaseAdr).toNat = (inode.toNat + 1) * 4096 % 2 ^ 32 := by
  have hsize : blockSize.toNat = 4096 := rfl
  rw [Fs.inodeAddr]
  bv_omega

/-- The number computed back is that of the same address. -/
theorem inodeAddr_inodeOf (h : fd.inodeP = fs.inodeAddr inode) :
    fs.inodeAddr (fs.inodeOf fd) = fs.inodeAddr inode := by
  have hsize : blockSize.toNat = 4096 := rfl
  have hdiff := fs.toNat_inodeAddr_sub inode
  have hback : ((fs.inodeAddr inode - fs.fsBaseAdr) / blockSize * blockSize).toNat
      = (fs.inodeAddr inode - fs.fsBaseAdr).toNat := by
    rw [BitVec.toNat_mul, BitVec.toNat_udiv, hdiff, hsize]
    omega
  rw [Fs.inodeOf, h, Fs.inodeAddr, BitVec.sub_add_cancel, BitVec.eq_of_toNat_eq hback,
    BitVec.add_comm, BitVec.sub_add_cancel]

/-- It is one of an index node when the low 20 bits of the block number are. -/
theorem inodeOf_lt_iff (h : fd.inodeP = fs.inodeAddr inode) :
    fs.inodeOf fd < fs.numIndexNodes ↔
      (inode.toNat + 1) % 2 ^ 20 ≠ 0 ∧ (inode.toNat + 1) % 2 ^ 20 ≤ fs.numIndexNodes.toNat := by
  have hsize : blockSize.toNat = 4096 := rfl
  have hdiff := fs.toNat_inodeAddr_sub inode
  have hblock : ((fs.inodeAddr inode - fs.fsBaseAdr) / blockSize).toNat
      = (inode.toNat + 1) % 2 ^ 20 := by
    rw [BitVec.toNat_udiv, hdiff, hsize]
    omega
  rw [Fs.inodeOf, h]
  bv_omega

/-- Reading through a descriptor, at any position, is reading by inode number; and a number that no
index node has is never read. -/
def ReadsByInode (fs : Fs) (img : Memory) (fd : Fd) (inode : Word) : Prop :=
  ∀ (pos : Word) (mem : Memory) (buf nbytes : Word),
    let r := fileRead fs img { fd with filePos := pos } mem buf nbytes
    (r.1, r.2.2) = readData fs img inode pos mem buf nbytes ∧
      (fs.numIndexNodes ≤ inode → r.1 = error)

/-- A null pointer makes every read fail, so that it is for a number that no index node has. -/
theorem readsByInode_of_null (hbase : fs.fsBaseAdr ≠ 0) (hnull : fs.inodeAddr inode = 0) :
    ReadsByInode fs img (openedFile fs inode 0) inode ↔ ¬ inode < fs.numIndexNodes := by
  have herr : (error : Word) ≠ 0 := by decide
  have hclosed : ∀ pos mem buf nbytes,
      fileRead fs img { openedFile fs inode 0 with filePos := pos } mem buf nbytes
        = (error, { openedFile fs inode 0 with filePos := pos }, mem) :=
    fun pos mem buf nbytes => fileRead_of_closed (.inr hnull) mem buf nbytes
  constructor
  · intro h hlt
    have hread := congrArg Prod.fst (h 0 (fun _ => 0) 1 0).1
    rw [(readData_zero hbase (by decide) 0 _).mpr hlt, hclosed] at hread
    exact herr hread
  · intro hlt pos mem buf nbytes
    dsimp only
    rw [hclosed, readData_of_rejects (.inr (.inl (BitVec.not_lt.mp hlt)))]
    exact ⟨rfl, fun _ => rfl⟩

/-- With any other pointer the number computed back is checked. -/
theorem readsByInode_of_ne_null (hbase : fs.fsBaseAdr ≠ 0) (hnull : fs.inodeAddr inode ≠ 0) :
    ReadsByInode fs img (openedFile fs inode 0) inode ↔
      (inode < fs.numIndexNodes ↔ fs.inodeOf (openedFile fs inode 0) < fs.numIndexNodes) := by
  -- the descriptor moved to a position
  have hback : ∀ pos, fs.inodeOf { openedFile fs inode 0 with filePos := pos }
      = fs.inodeOf (openedFile fs inode 0) := fun _ => rfl
  have haddr : fs.inodeAddr (fs.inodeOf (openedFile fs inode 0)) = fs.inodeAddr inode :=
    inodeAddr_inodeOf rfl
  constructor
  · intro h
    have hread := congrArg Prod.fst (h 0 (fun _ => 0) 1 0).1
    dsimp only at hread
    rw [fileRead_of_open rfl hnull] at hread
    dsimp only at hread
    have hself : (readData fs img inode 0 (fun _ => 0) 1 0).1 = 0 ↔ inode < fs.numIndexNodes :=
      readData_zero hbase (by decide) 0 _
    rw [← hself, ← hread, hback, readData_zero hbase (by decide)]
  · intro h pos mem buf nbytes
    dsimp only
    rw [fileRead_of_open rfl hnull]
    dsimp only
    rw [hback, readData_congr haddr h.symm]
    refine ⟨rfl, fun hle => ?_⟩
    rw [readData_of_rejects (.inr (.inl hle))]

/-- **When the two agree.** Reading through the descriptor that `file_open` has made is reading by
the inode number of the entry if and only if the number is that of an index node exactly when the
pointer is not null and the number computed back from it is that of an index node. -/
theorem readsByInode_iff {fname : ℕ → Byte} {entry : Dentry}
    (hlookup : readDentryByName fs img fname Dentry.uninit = some entry)
    (htype : entry.type = regFile) (fd₀ : Fd) :
    ReadsByInode fs img (fileOpen fs img fd₀ fname).2 entry.inode ↔
      (entry.inode < fs.numIndexNodes ↔ fs.inodeAddr entry.inode ≠ 0 ∧
        (entry.inode.toNat + 1) % 2 ^ 20 ≠ 0 ∧
          (entry.inode.toNat + 1) % 2 ^ 20 ≤ fs.numIndexNodes.toNat) := by
  have hbase := fsBaseAdr_ne_zero_of_lookup hlookup
  have hopen : (fileOpen fs img fd₀ fname).2 = openedFile fs entry.inode 0 := by
    rw [fileOpen, hlookup]
    dsimp only
    rw [if_pos htype]
    rfl
  have hlt : fs.inodeOf (openedFile fs entry.inode 0) < fs.numIndexNodes ↔
      (entry.inode.toNat + 1) % 2 ^ 20 ≠ 0 ∧
        (entry.inode.toNat + 1) % 2 ^ 20 ≤ fs.numIndexNodes.toNat := inodeOf_lt_iff rfl
  rw [hopen, ← hlt]
  by_cases hnull : fs.inodeAddr entry.inode = 0
  · have hnot : ¬ (fs.inodeAddr entry.inode ≠ 0 ∧
        fs.inodeOf (openedFile fs entry.inode 0) < fs.numIndexNodes) := fun h => h.1 hnull
    rw [readsByInode_of_null hbase hnull, iff_false_right hnot]
  · rw [readsByInode_of_ne_null hbase hnull, and_iff_right hnull]

/-- `shell` of the sample image is read through its descriptor as inode 0. -/
theorem readsByInode_iff_sample :
    ReadsByInode (fsInit sampleImage sampleBase) sampleImage
      (fileOpen (fsInit sampleImage sampleBase) sampleImage Fd.closed (cstr shell)).2 0 := by
  have hinode : (copyDentry (fsInit sampleImage sampleBase) sampleImage 2
      (strncpy Dentry.uninit.fname
        (sampleImage.view ((fsInit sampleImage sampleBase).dentryAddr 2)) fnameSize)).inode = 0 := by
    decide
  have h := (readsByInode_iff readDentryByName_sample (by decide) Fd.closed).mpr
    (by decide)
  rw [hinode] at h
  exact h

/-- The sample image with the inode number `2 ^ 20` for `shell`. -/
def sampleWrapped : Memory := sampleImage.store8 (sampleBase + 230) 0x10

/-- No index node has the number of `shell`, and its descriptor reads the file at index node 0. -/
theorem not_readsByInode_sampleWrapped :
    (readDentryByName (fsInit sampleWrapped sampleBase) sampleWrapped (cstr shell)
        Dentry.uninit).map (fun entry => (entry.type, entry.inode)) = some (regFile, 0x100000) ∧
      ¬ ReadsByInode (fsInit sampleWrapped sampleBase) sampleWrapped
        (fileOpen (fsInit sampleWrapped sampleBase) sampleWrapped Fd.closed (cstr shell)).2
        0x100000 := by
  refine ⟨by decide, ?_⟩
  intro h
  have hread := (h 0 (fun _ => 0) execAddr 4).2 (by decide)
  revert hread
  decide

end HieUnix
