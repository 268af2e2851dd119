import HieUnix.LibC

/-!
# The read-only file system (`fs.c`)

The image is a boot block with the counts and the directory entries, one block per index node
and then the data blocks; all numbers are 32-bit and pointers wrap. `img` is the kernel memory
that holds the image. `mem` is the memory of the caller's buffers, which no image overlaps:
the image is never written, and a buffer never read back by the file system.

Each function is the code's, with the file descriptor, the directory globals and the buffers'
memory passed in and out. A descriptor pointer is never null here: every caller passes the
address of a table entry.
-/

namespace HieUnix

/-! ## The image -/

/-- The globals of `fs.c` that `fs_init` sets. -/
structure Fs where
  fsBaseAdr : Word
  numDentries : Word
  numIndexNodes : Word
  numDataBlocks : Word
deriving DecidableEq, Repr

/-- `fs_init`. -/
def fsInit (img : Memory) (adr : Word) : Fs where
  fsBaseAdr := adr
  numDentries := img.load32 adr
  numIndexNodes := img.load32 (adr + 4)
  numDataBlocks := img.load32 (adr + 8)

/-- `dentry_t`; `fname` is the bytes from the start of the record. -/
structure Dentry where
  fname : ℕ → Byte
  type : Word
  inode : Word

/-- A local `dentry_t` before it is filled in. -/
def Dentry.uninit : Dentry := ⟨fun _ => 0, 0, 0⟩

namespace Fs

variable (fs : Fs) (img : Memory)

/-- `(dentry_t*)(fs_base_adr)+i+1`: the address of directory entry `i`. -/
def dentryAddr (i : ℕ) : Word := fs.fsBaseAdr + BitVec.ofNat 32 entrySize * (BitVec.ofNat 32 i + 1)

/-- The address of the block of an index node. -/
def inodeAddr (inode : Word) : Word := fs.fsBaseAdr + (inode + 1) * blockSize

/-- `node[block_index+1]`: the data block number of a file block. -/
def blockNumber (inode blockIndex : Word) : Word :=
  img.load32 (fs.inodeAddr inode + 4 * (blockIndex + 1))

/-- The address of byte `off` of a data block. -/
def dataAddr (blockNumber off : Word) : Word :=
  fs.fsBaseAdr + (fs.numIndexNodes + 1 + blockNumber) * blockSize + off

end Fs

/-- `get_file_length`. -/
def getFileLength (fs : Fs) (img : Memory) (inode : Word) : Word := img.load32 (fs.inodeAddr inode)

/-! ## Lookups -/

/-- The dentry filled in from entry `i`: name, type and inode. -/
def copyDentry (fs : Fs) (img : Memory) (i : ℕ) (fname : ℕ → Byte) : Dentry where
  fname := fname
  type := img.load32 (fs.dentryAddr i + 32)
  inode := img.load32 (fs.dentryAddr i + 36)

/-- The loop of `read_dentry_by_name` from entry `i` on. -/
def readDentryByNameLoop (fs : Fs) (img : Memory) (fname : ℕ → Byte) (dentry : Dentry) :
    ℕ → ℕ → Option Dentry
  | 0, _ => none
  | fuel + 1, i =>
    let cur := img.view (fs.dentryAddr i)
    if strncmp cur fname fnameSize = 0 then
      some (copyDentry fs img i (strncpy dentry.fname cur fnameSize))
    else readDentryByNameLoop fs img fname dentry fuel (i + 1)

/-- `read_dentry_by_name`. `none` is the return value -1, which leaves the dentry as it was. -/
def readDentryByName (fs : Fs) (img : Memory) (fname : ℕ → Byte) (dentry : Dentry) :
    Option Dentry :=
  if fs.fsBaseAdr = 0 then none
  else readDentryByNameLoop fs img fname dentry fs.numDentries.toNat 0

/-- `read_dentry_by_index`. `none` when the `strcpy` of the name leaves the dentry. -/
def readDentryByIndex (fs : Fs) (img : Memory) (index : ℕ) (dentry : Dentry) :
    Option (Word × Dentry) :=
  if fs.fsBaseAdr = 0 then some (error, dentry)
  else if fs.numDentries.toNat ≤ index then some (error, dentry)
  else
    (strcpy entrySize dentry.fname (img.view (fs.dentryAddr index))).map fun fname =>
      (0, copyDentry fs img index fname)

/-! ## Data -/

/-- The copy loop of `read_data` from `i` on, over at most `fuel` more bytes. -/
def readDataLoop (fs : Fs) (img : Memory) (inode fileLength offset buf : Word) :
    ℕ → ℕ → Memory → Word × Memory
  | 0, i, mem => (BitVec.ofNat 32 i, mem)
  | fuel + 1, i, mem =>
    let pos := offset + BitVec.ofNat 32 i
    let blockNumber := fs.blockNumber img inode (pos / blockSize)
    if fs.numDataBlocks ≤ blockNumber then (error, mem)
    else
      let mem := mem.store8 (buf + BitVec.ofNat 32 i) (img (fs.dataAddr blockNumber (pos % blockSize)))
      if fileLength ≤ pos + 1 then (BitVec.ofNat 32 (i + 1), mem)
      else readDataLoop fs img inode fileLength offset buf fuel (i + 1) mem

/-- `read_data`. -/
def readData (fs : Fs) (img : Memory) (inode offset : Word) (mem : Memory) (buf length : Word) :
    Word × Memory :=
  if fs.fsBaseAdr = 0 then (error, mem)
  else if fs.numIndexNodes ≤ inode then (error, mem)
  else if buf = 0 then (error, mem)
  else
    let mem := mem.fill buf 0 length.toNat
    let fileLength := getFileLength fs img inode
    if fileLength ≤ offset then (0, mem)
    else readDataLoop fs img inode fileLength offset buf length.toNat 0 mem

/-! ## Regular files -/

/-- `file_open`. -/
def fileOpen (fs : Fs) (img : Memory) (fd : Fd) (fname : ℕ → Byte) : Word × Fd :=
  match readDentryByName fs img fname Dentry.uninit with
  | none => (error, fd)
  | some entry =>
    if entry.type = regFile then
      (0, { fopsP := some .fileFops, inodeP := fs.inodeAddr entry.inode, filePos := 0, flags := 1 })
    else (error, fd)

/-- `file_read`. -/
def fileRead (fs : Fs) (img : Memory) (fd : Fd) (mem : Memory) (buf nbytes : Word) :
    Word × Fd × Memory :=
  if fd.flags ≠ 1 ∨ fd.inodeP = 0 then (error, fd, mem)
  else
    let node := (fd.inodeP - fs.fsBaseAdr) / blockSize - 1
    let (bytesRead, mem) := readData fs img node fd.filePos mem buf nbytes
    (bytesRead, { fd with filePos := fd.filePos + bytesRead }, mem)

/-- `file_write`: the file system is read only. -/
def fileWrite : Word := error

/-- `file_close`. -/
def fileClose (_ : Fd) : Word × Fd := (0, Fd.closed)

/-! ## Directories -/

/-- The globals `dir_buf` and `dir_length`. -/
structure DirState where
  dirBuf : ℕ → Byte
  dirLength : Word

/-- The fill loop of `dir_open` from entry `i` on: the name of the entry, then zero bytes
ahead of it from `strlen(dir_buf)` on. `none` when a `strcpy` leaves its dentry. -/
def dirOpenLoop (fs : Fs) (img : Memory) : ℕ → ℕ → Dentry → DirState → Option DirState
  | 0, _, _, dir => some dir
  | fuel + 1, i, dEntry, dir =>
    match readDentryByIndex fs img i dEntry with
    | none => none
    | some (ret, dEntry) =>
      if ret = 0 then
        let start := dir.dirLength.toNat
        let named : ℕ → Byte := fun k =>
          if k < start then dir.dirBuf k
          else strncpy (fun j => dir.dirBuf (start + j)) dEntry.fname fnameSize (k - start)
        let zeroFrom := start + fnameSize + strlen named maxBufSize
        let zeroTo := start + fnameSize + (i + 1) * fnameSize
        dirOpenLoop fs img fuel (i + 1) dEntry
          { dirBuf := fun k => if zeroFrom ≤ k ∧ k < zeroTo then 0 else named k
            dirLength := dir.dirLength + BitVec.ofNat 32 fnameSize }
      else dirOpenLoop fs img fuel (i + 1) dEntry dir

/-- `dir_open`. -/
def dirOpen (fs : Fs) (img : Memory) (fd : Fd) (fname : ℕ → Byte) (dir : DirState) :
    Option (Word × Fd × DirState) :=
  match readDentryByName fs img fname Dentry.uninit with
  | none => some (error, fd, dir)
  | some entry =>
    if entry.type = dirFile then
      (dirOpenLoop fs img fs.numDentries.toNat 0 entry { dir with dirLength := 0 }).map fun dir =>
        (0, { fopsP := some .dirFops, inodeP := 0, filePos := 0, flags := 1 }, dir)
    else some (error, fd, dir)

/-- The copy loop of `dir_read` from `i` on: the number of bytes copied, `end_of_file` and the
memory after it. -/
def dirReadLoop (dir : DirState) (filePos buf : Word) :
    ℕ → ℕ → Bool → Memory → ℕ × Bool × Memory
  | 0, i, endOfFile, mem => (i, endOfFile, mem)
  | fuel + 1, i, endOfFile, mem =>
    if endOfFile then (i, endOfFile, mem)
    else
      let pos := filePos + BitVec.ofNat 32 i
      dirReadLoop dir filePos buf fuel (i + 1) (decide (dir.dirLength ≤ pos + 1))
        (mem.store8 (buf + BitVec.ofNat 32 i) (dir.dirBuf pos.toNat))

/-- `dir_read`. -/
def dirRead (fd : Fd) (dir : DirState) (mem : Memory) (buf nbytes : Word) : Word × Fd × Memory :=
  match dirReadLoop dir fd.filePos buf nbytes.toNat 0 (decide (dir.dirLength ≤ fd.filePos)) mem with
  | (i, endOfFile, mem) =>
    if endOfFile then (0, { fd with filePos := dir.dirLength }, mem)
    else (BitVec.ofNat 32 i, { fd with filePos := fd.filePos + nbytes }, mem)

/-- `dir_write`. -/
def dirWrite : Word := error

/-- `dir_close`. -/
def dirClose (_ : Fd) : Word × Fd := (0, Fd.closed)

end HieUnix
