import Xv6.Lib.Bytes
import Xv6.Log

open bytes

namespace xv6

abbrev FSSIZE : Nat := 1000
abbrev NINODE : Nat := 50
abbrev NDEV : Nat := 10

instance : NeZero NINODE := ⟨by decide⟩

namespace fs

abbrev ROOTINO : Nat := 1
abbrev BSIZE : Nat := 512
abbrev NDIRECT : Nat := 12
/-- `BSIZE / sizeof(uint)` -/
abbrev NINDIRECT : Nat := 128
abbrev MAXFILE : Nat := NDIRECT + NINDIRECT
/-- `BSIZE / sizeof(struct dinode)` -/
abbrev IPB : Nat := 8
abbrev BPB : Nat := BSIZE * 8
abbrev DIRSIZ : Nat := 14

abbrev T_DIR : Nat := 1
abbrev T_FILE : Nat := 2
abbrev T_DEV : Nat := 3

structure Superblock where
  size : Nat
  nblocks : Nat
  ninodes : Nat
  nlog : Nat
  logstart : Nat
  inodestart : Nat
  bmapstart : Nat

abbrev NINODES : Nat := 200
abbrev nbitmap : Nat := FSSIZE / (BSIZE * 8) + 1
abbrev ninodeblocks : Nat := NINODES / IPB + 1
abbrev nlog : Nat := LOGSIZE
/-- Number of metadata blocks: boot, super, log, inode and bitmap blocks. -/
abbrev nmeta : Nat := 2 + nlog + ninodeblocks + nbitmap

/-- The super block that `mkfs` writes and `iinit` reads back. -/
def sb : Superblock where
  size := FSSIZE
  nblocks := FSSIZE - nmeta
  ninodes := NINODES
  nlog := nlog
  logstart := 2
  inodestart := 2 + nlog
  bmapstart := 2 + nlog + ninodeblocks

/-- `struct dinode`. The shorts are kept as 16-bit patterns. -/
@[ext] structure Dinode where
  type : Nat
  major : Nat
  minor : Nat
  nlink : Nat
  size : Nat
  addrs : Fin (NDIRECT + 1) → Nat

/-- `IBLOCK(i, sb)` and `BBLOCK(b, sb)` -/
def IBLOCK (i : Nat) : Nat := i / IPB + sb.inodestart
def BBLOCK (b : Nat) : Nat := b / BPB + sb.bmapstart

/-- The byte address of `(struct dinode*)bp->data + inum%IPB` in the inode's block. -/
def dinodeAt (inum : Nat) : Nat := IBLOCK inum * BSIZE + inum % IPB * 64

def readDinode (m : Mem) (inum : Nat) : Dinode where
  type := load16 m (dinodeAt inum)
  major := load16 m (dinodeAt inum + 2)
  minor := load16 m (dinodeAt inum + 4)
  nlink := load16 m (dinodeAt inum + 6)
  size := load32 m (dinodeAt inum + 8)
  addrs := fun k => load32 m (dinodeAt inum + 12 + 4 * k)

/-- The 16 words of a dinode in memory. -/
def Dinode.word (d : Dinode) : Nat → Nat
  | 0 => d.type + 2 ^ 16 * d.major
  | 1 => d.minor + 2 ^ 16 * d.nlink
  | 2 => d.size
  | k + 3 => if h : k < NDIRECT + 1 then d.addrs ⟨k, h⟩ else 0

def writeDinode (m : Mem) (inum : Nat) (d : Dinode) : Mem := storeWords m (dinodeAt inum) 16 d.word

/-- A dinode cleared by `memset` and given a type. -/
def Dinode.cleared (type : Nat) : Dinode := ⟨type, 0, 0, 0, 0, fun _ => 0⟩

/-- The byte of the free map that holds the bit of block `b`, and that bit's mask. -/
def bmapByte (b : Nat) : Nat := BBLOCK b * BSIZE + b % BPB / 8
def mask (b : Nat) : UInt8 := 1 <<< UInt8.ofNat (b % BPB % 8)

/-- Whether the free map marks block `b` as in use. -/
def inUse (m : Mem) (b : Nat) : Bool := m (bmapByte b) &&& mask b != 0

def setInUse (m : Mem) (b : Nat) : Mem := store8 m (bmapByte b) (m (bmapByte b) ||| mask b)
def clearInUse (m : Mem) (b : Nat) : Mem := store8 m (bmapByte b) (m (bmapByte b) &&& ~~~ mask b)

/-- The `j`th address in the indirect block `b`. -/
def indirect (m : Mem) (b j : Nat) : Nat := load32 m (b * BSIZE + 4 * j)

end fs
end xv6
