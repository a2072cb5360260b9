import Xv6.Lib.Outcome
import Xv6.Fs.Syscall

open bytes

namespace xv6.fs

namespace mkfs

/-- The image file that `mkfs` works on, of `FSSIZE` sectors, and its counters. -/
structure Img where
  disk : Mem
  freeinode : Nat
  freeblock : Nat

/-- `mkfs` ends early when an assertion or a read of the image fails. -/
abbrev MkfsM := EStateM String Img

/-- Reading a sector fails past the end of the image. -/
def rsect (sec : Nat) : MkfsM Unit := do
  if sec ≥ FSSIZE then
    throw "read"

def setDisk (f : Mem → Mem) : MkfsM Unit := modify fun s => { s with disk := f s.disk }

def winode (inum : Nat) (din : Dinode) : MkfsM Unit := do
  rsect (IBLOCK inum)
  setDisk fun m => writeDinode m inum din

def rinode (inum : Nat) : MkfsM Dinode := do
  rsect (IBLOCK inum)
  return readDinode (← get).disk inum

def ialloc (type : Nat) : MkfsM Nat := do
  let inum := (← get).freeinode
  modify fun s => { s with freeinode := s.freeinode + 1 }
  winode inum { Dinode.cleared type with nlink := 1 }
  return inum

/-- `freeblock++` -/
def newblock : MkfsM Nat := do
  let b := (← get).freeblock
  modify fun s => { s with freeblock := s.freeblock + 1 }
  return b

/-- The block of index `fbn` in `iappend`: its address, allocated if there is
none, and the inode that holds it. -/
def iappend.block (din : Dinode) (fbn : Nat) : MkfsM (Dinode × Nat) := do
  if h : fbn < NDIRECT then
    if din.addrs ⟨fbn, Nat.lt_succ_of_lt h⟩ = 0 then
      let x ← newblock
      return ({ din with addrs := Function.update din.addrs ⟨fbn, Nat.lt_succ_of_lt h⟩ x }, x)
    else
      return (din, din.addrs ⟨fbn, Nat.lt_succ_of_lt h⟩)
  else
    let din ←
      if din.addrs (Fin.last NDIRECT) = 0 then do
        let x ← newblock
        pure { din with addrs := Function.update din.addrs (Fin.last NDIRECT) x }
      else
        pure din
    let ind := din.addrs (Fin.last NDIRECT)
    rsect ind
    if indirect (← get).disk ind (fbn - NDIRECT) = 0 then
      let x ← newblock
      setDisk fun m => store32 m (ind * BSIZE + 4 * (fbn - NDIRECT)) x
      return (din, x)
    else
      return (din, indirect (← get).disk ind (fbn - NDIRECT))

def iappend.loop : Nat → Dinode → Nat → List UInt8 → MkfsM (Dinode × Nat)
  | 0, din, off, _ => return (din, off)
  | fuel + 1, din, off, p => do
    if p = [] then
      return (din, off)
    let fbn := off / BSIZE
    if fbn ≥ MAXFILE then
      throw "assert"
    let (din, x) ← iappend.block din fbn
    let n1 := min p.length ((fbn + 1) * BSIZE - off)
    rsect x
    setDisk fun m => blit m (x * BSIZE + (off - fbn * BSIZE)) (p.take n1)
    iappend.loop fuel din (off + n1) (p.drop n1)

/-- Append bytes to the file `inum`. -/
def iappend (inum : Nat) (p : List UInt8) : MkfsM Unit := do
  let din ← rinode inum
  let (din, off) ← iappend.loop p.length din din.size p
  winode inum { din with size := off }

/-- Write the free map: the first `used` blocks have been allocated. -/
def balloc (used : Nat) : MkfsM Unit := do
  if used ≥ BSIZE * 8 then
    throw "assert"
  setDisk fun m => fill m (sb.bmapstart * BSIZE) 0 BSIZE
  (List.range used).forM fun i =>
    setDisk fun m =>
      let a := sb.bmapstart * BSIZE + i / 8
      store8 m a (m a ||| 1 <<< UInt8.ofNat (i % 8))

/-- An input file, by its name on the command line. -/
structure Input where
  arg : List UInt8
  contents : List UInt8

abbrev underscore : UInt8 := 95

/-- The name of an input file in the file system: a leading `_` is skipped. -/
def Input.name (f : Input) : List UInt8 := if f.arg.headD 0 = underscore then f.arg.tail else f.arg

/-- The loop that reads an input file, a block at a time. -/
def copyin (inum : Nat) : Nat → List UInt8 → MkfsM Unit
  | 0, _ => return
  | fuel + 1, data => do
    if data = [] then
      return
    iappend inum (data.take BSIZE)
    copyin inum fuel (data.drop BSIZE)

def addFile (rootino : Nat) (f : Input) : MkfsM Unit := do
  if slash ∈ f.arg then
    throw "assert"
  let inum ← ialloc T_FILE
  iappend rootino (dirent inum f.name)
  copyin inum f.contents.length f.contents

/-- The seven words of the super block. -/
def superWord : Nat → Nat
  | 0 => sb.size
  | 1 => sb.nblocks
  | 2 => sb.ninodes
  | 3 => sb.nlog
  | 4 => sb.logstart
  | 5 => sb.inodestart
  | _ => sb.bmapstart

def main (files : List Input) : MkfsM Unit := do
  setDisk fun m => storeWords m BSIZE 7 superWord
  let rootino ← ialloc T_DIR
  if rootino ≠ ROOTINO then
    throw "assert"
  iappend rootino (dirent rootino dot)
  iappend rootino (dirent rootino dotdot)
  files.forM (addFile rootino)
  -- fix size of root inode dir
  let din ← rinode rootino
  winode rootino { din with size := (din.size / BSIZE + 1) * BSIZE }
  balloc (← get).freeblock

/-- The image and the counters that `main` starts with. -/
def blank : Img where
  disk := fun _ => 0
  freeinode := 1
  freeblock := nmeta

end mkfs

/-- The kernel's tables when it starts on a disk, with its pages free. -/
def iinit (disk : Mem) (free : List Nat) : Fs where
  disk := disk
  icache := fun _ => ⟨0, 0, false, false, Dinode.cleared 0⟩
  ftable := fun _ => ⟨.FD_NONE, 0, false, false, 0, 0, 0⟩
  pages := { free, held := [], pipe := fun _ => junk, made := fun _ => 0, freed := fun _ => 0 }
  proc := fun _ => none
  outstanding := 0
  lh := []
  console := []

/-- What `userinit` does to the file system: the first process starts in the root directory. -/
def userinit : FsM Unit := do
  if let some ip ← namei 0 [slash] then
    modify fun s => { s with proc := Function.update s.proc initproc (some { cwd := ip, ofile := fun _ => none }) }

end xv6.fs
