import Xv6.Layout
import Xv6.Pipe
import Xv6.Fs.Disk

open bytes

namespace xv6.fs

/-- `struct inode`, an entry of the inode cache. There is a single device, so
`dev` is left out. `din` holds the copies of the fields of the disk inode and
`lock` says whether the sleep-lock is held. -/
structure Inode where
  inum : Nat
  ref : Nat
  lock : Bool
  valid : Bool
  din : Dinode

inductive FileType where
  | FD_NONE
  | FD_PIPE
  | FD_INODE
  deriving DecidableEq

/-- `struct file`. A pipe is given by the number of its page. -/
structure File where
  type : FileType
  ref : Nat
  readable : Bool
  writable : Bool
  pipe : Nat
  ip : Fin NINODE
  off : Nat

/-- What a `struct pipe` reads as on a page that `kfree` has filled with junk. -/
def junk : Pipe where
  data _ := 1
  nread := 0x01010101
  nwrite := 0x01010101
  readopen := true
  writeopen := true

/-- The pages of the kernel allocator, as far as pipes go: the free list, the
pages that the rest of the kernel holds, and the `struct pipe` found at a page.
`made` and `freed` count how often a page became that of a pipe and how often
such a page was given to `kfree`. -/
structure Pages where
  free : List Nat
  held : List Nat
  pipe : Nat → Pipe
  made : Nat → Nat
  freed : Nat → Nat

/-- The parts of `struct proc` that refer to files. -/
structure Proc where
  cwd : Fin NINODE
  ofile : Fin NOFILE → Option (Fin NFILE)

/-- The file system of a running kernel between two system calls: the disk as
seen through the buffer cache, the inode cache, the open files, the pages and
the processes. `outstanding` is `log.outstanding` and `lh` is `log.lh.block[0..log.lh.n)`;
`console` is typed input that no process has read. -/
structure Fs where
  disk : Mem
  icache : Fin NINODE → Inode
  ftable : Fin NFILE → File
  pages : Pages
  proc : Fin NPROC → Option Proc
  outstanding : Nat
  lh : List Nat
  console : List UInt8

/-- Kernel code that changes the file system, or stops with a message: that of
a `panic`, or `"sleep"` when a process waits for a lock that it holds itself or for room in the log. -/
abbrev FsM := EStateM String Fs

def setDisk (f : Mem → Mem) : FsM Unit := modify fun s => { s with disk := f s.disk }

def updateInode (ip : Fin NINODE) (f : Inode → Inode) : FsM Unit :=
  modify fun s => { s with icache := Function.update s.icache ip (f (s.icache ip)) }

/-- Assign to the copies of the disk fields in `*ip`. -/
def updateDin (ip : Fin NINODE) (f : Dinode → Dinode) : FsM Unit :=
  updateInode ip fun e => { e with din := f e.din }

def readInode (ip : Fin NINODE) : FsM Inode := return (← get).icache ip

def begin_op : FsM Unit := do
  let s ← get
  if s.lh.length + (s.outstanding + 1) * MAXOPBLOCKS > LOGSIZE then
    throw "sleep"
  modify fun s => { s with outstanding := s.outstanding + 1 }

/-- The last operation to end commits, which empties the log. -/
def end_op : FsM Unit :=
  modify fun s => { s with outstanding := s.outstanding - 1, lh := if s.outstanding = 1 then [] else s.lh }

/-- The blocks of the log header after block `b` has been logged, once more or for the first time. -/
def absorb (lh : List Nat) (b : Nat) : List Nat := if b ∈ lh then lh else lh ++ [b]

/-- Add block `b` to the open transaction. -/
def log_write (b : Nat) : FsM Unit := do
  let s ← get
  if s.lh.length ≥ LOGSIZE ∨ s.lh.length ≥ sb.nlog - 1 then
    throw "too big a transaction"
  if s.outstanding < 1 then
    throw "log_write outside of trans"
  modify fun s => { s with lh := absorb s.lh b }

/-- Zero a block. -/
def bzero (bno : Nat) : FsM Unit := do
  setDisk fun m => fill m (bno * BSIZE) 0 BSIZE
  log_write bno

/-- Allocate a zeroed disk block. -/
def balloc : FsM Nat := do
  let s ← get
  match (List.range sb.size).find? fun b => !inUse s.disk b with
  | some b =>
    setDisk fun m => setInUse m b
    log_write (BBLOCK b)
    bzero b
    return b
  | none => throw "balloc: out of blocks"

/-- Free a disk block. -/
def bfree (b : Nat) : FsM Unit := do
  let s ← get
  if inUse s.disk b then
    setDisk fun m => clearInUse m b
    log_write (BBLOCK b)
  else
    throw "freeing free block"

def iget (inum : Nat) : FsM (Fin NINODE) := do
  let s ← get
  match (List.finRange NINODE).find? fun x => decide (0 < (s.icache x).ref ∧ (s.icache x).inum = inum) with
  | some ip =>
    updateInode ip fun e => { e with ref := e.ref + 1 }
    return ip
  | none =>
    match (List.finRange NINODE).find? fun x => (s.icache x).ref == 0 with
    | some ip =>
      updateInode ip fun e => { e with inum := inum, ref := 1, valid := false }
      return ip
    | none => throw "iget: no inodes"

/-- Allocate an inode: mark it allocated on the disk by giving it a type. -/
def ialloc (type : Nat) : FsM (Fin NINODE) := do
  let s ← get
  match (List.range' 1 (sb.ninodes - 1)).find? fun inum => (readDinode s.disk inum).type == 0 with
  | some inum =>
    setDisk fun m => writeDinode m inum (Dinode.cleared type)
    log_write (IBLOCK inum)
    iget inum
  | none => throw "ialloc: no inodes"

/-- Copy a modified in-memory inode to disk. -/
def iupdate (ip : Fin NINODE) : FsM Unit := do
  let e ← readInode ip
  setDisk fun m => writeDinode m e.inum e.din
  log_write (IBLOCK e.inum)

def idup (ip : Fin NINODE) : FsM (Fin NINODE) := do
  updateInode ip fun e => { e with ref := e.ref + 1 }
  return ip

def acquiresleep (ip : Fin NINODE) : FsM Unit := do
  if (← readInode ip).lock then
    throw "sleep"
  updateInode ip fun e => { e with lock := true }

def releasesleep (ip : Fin NINODE) : FsM Unit := updateInode ip fun e => { e with lock := false }

/-- Lock an inode; read it from disk if necessary. -/
def ilock (ip : Fin NINODE) : FsM Unit := do
  if (← readInode ip).ref < 1 then
    throw "ilock"
  acquiresleep ip
  let e ← readInode ip
  if e.valid = false then
    let s ← get
    updateInode ip fun e => { e with din := readDinode s.disk e.inum, valid := true }
    if (readDinode s.disk e.inum).type = 0 then
      throw "ilock: no type"

def iunlock (ip : Fin NINODE) : FsM Unit := do
  let e ← readInode ip
  if e.lock = false ∨ e.ref < 1 then
    throw "iunlock"
  releasesleep ip

/-- The disk address of the `bn`th block of an inode; `bmap` allocates the
block if there is none. -/
def bmap (ip : Fin NINODE) (bn : Nat) : FsM Nat := do
  let e ← readInode ip
  if h : bn < NDIRECT then
    if e.din.addrs ⟨bn, by omega⟩ = 0 then
      let addr ← balloc
      updateDin ip fun d => { d with addrs := Function.update d.addrs ⟨bn, by omega⟩ addr }
      return addr
    else
      return e.din.addrs ⟨bn, by omega⟩
  else if bn - NDIRECT < NINDIRECT then
    let ind ←
      if e.din.addrs (Fin.last NDIRECT) = 0 then do
        let addr ← balloc
        updateDin ip fun d => { d with addrs := Function.update d.addrs (Fin.last NDIRECT) addr }
        pure addr
      else
        pure (e.din.addrs (Fin.last NDIRECT))
    let s ← get
    if indirect s.disk ind (bn - NDIRECT) = 0 then
      let addr ← balloc
      setDisk fun m => store32 m (ind * BSIZE + 4 * (bn - NDIRECT)) addr
      log_write ind
      return addr
    else
      return indirect s.disk ind (bn - NDIRECT)
  else
    throw "bmap: out of range"

/-- Truncate an inode (discard its contents). -/
def itrunc (ip : Fin NINODE) : FsM Unit := do
  (List.finRange NDIRECT).forM fun i => do
    let e ← readInode ip
    if e.din.addrs i.castSucc ≠ 0 then
      bfree (e.din.addrs i.castSucc)
      updateDin ip fun d => { d with addrs := Function.update d.addrs i.castSucc 0 }
  let e ← readInode ip
  let ind := e.din.addrs (Fin.last NDIRECT)
  if ind ≠ 0 then
    (List.range NINDIRECT).forM fun j => do
      let s ← get
      if indirect s.disk ind j ≠ 0 then
        bfree (indirect s.disk ind j)
    bfree ind
    updateDin ip fun d => { d with addrs := Function.update d.addrs (Fin.last NDIRECT) 0 }
  updateDin ip fun d => { d with size := 0 }
  iupdate ip

/-- Drop a reference to an in-memory inode. If that was the last reference and
the inode has no links to it, free the inode and its content on disk. -/
def iput (ip : Fin NINODE) : FsM Unit := do
  acquiresleep ip
  let e ← readInode ip
  if e.valid ∧ e.din.nlink = 0 ∧ e.ref = 1 then
    itrunc ip
    updateDin ip fun d => { d with type := 0 }
    iupdate ip
    updateInode ip fun e => { e with valid := false }
  releasesleep ip
  updateInode ip fun e => { e with ref := e.ref - 1 }

def iunlockput (ip : Fin NINODE) : FsM Unit := do
  iunlock ip
  iput ip

/-- The loop of `readi` from offset `off`, with `n` bytes to go. -/
def readLoop (ip : Fin NINODE) : Nat → Nat → Nat → FsM (List UInt8)
  | 0, _, _ => return []
  | fuel + 1, off, n => do
    if n = 0 then
      return []
    let b ← bmap ip (off / BSIZE)
    let s ← get
    let m := min n (BSIZE - off % BSIZE)
    let rest ← readLoop ip fuel (off + m) (n - m)
    return slice s.disk (b * BSIZE + off % BSIZE) m ++ rest

abbrev CONSOLE : Nat := 1

/-- Whether `major` is a device number with functions in `devsw`: the console
is the only device that installs them. -/
def devsw (major : Nat) : Bool := major < NDEV && major == CONSOLE

def consoleread (n : Nat) : FsM (List UInt8) := do
  let s ← get
  set { s with console := s.console.drop n }
  return s.console.take n

/-- Read data from an inode; `none` is the result -1. -/
def readi (ip : Fin NINODE) (off n : Nat) : FsM (Option (List UInt8)) := do
  let e ← readInode ip
  if e.din.type = T_DEV then
    if devsw e.din.major then
      return some (← consoleread n)
    else
      return none
  else if off > e.din.size ∨ u32 (off + n) < off then
    return none
  else
    let n := if u32 (off + n) > e.din.size then e.din.size - off else n
    return some (← readLoop ip n off n)

/-- The loop of `writei` from offset `off`, with the bytes `src` to go. -/
def writeLoop (ip : Fin NINODE) : Nat → Nat → List UInt8 → FsM Unit
  | 0, _, _ => return
  | fuel + 1, off, src => do
    if src = [] then
      return
    let b ← bmap ip (off / BSIZE)
    let m := min src.length (BSIZE - off % BSIZE)
    setDisk fun disk => blit disk (b * BSIZE + off % BSIZE) (src.take m)
    log_write b
    writeLoop ip fuel (off + m) (src.drop m)

/-- Write data to an inode; `none` is the result -1. -/
def writei (ip : Fin NINODE) (src : List UInt8) (off : Nat) : FsM (Option Nat) := do
  let e ← readInode ip
  let n := src.length
  if e.din.type = T_DEV then
    if devsw e.din.major then
      return some n
    else
      return none
  else if off > e.din.size ∨ u32 (off + n) < off then
    return none
  else if u32 (off + n) > MAXFILE * BSIZE then
    return none
  else
    writeLoop ip n off src
    if n > 0 ∧ off + n > e.din.size then
      updateDin ip fun d => { d with size := off + n }
      iupdate ip
    return some n

end xv6.fs
