import Xv6.Fs.Disk
import Xv6.Layout
import Xv6.Lib.Outcome

open bytes

namespace xv6.log.redo

open fs (BSIZE)

/-- A disk block. -/
abbrev Block := Fin BSIZE → UInt8

/-- The bytes of a block as a memory, and its words. -/
def Block.mem (b : Block) : Mem := fun a => if h : a < BSIZE then b ⟨a, h⟩ else 0

def Block.word (b : Block) (k : Nat) : Nat := load32 b.mem (4 * k)

/-- A block with its first `n` words replaced. -/
def Block.setWords (b : Block) (n : Nat) (w : Nat → Nat) : Block := fun a => storeWords b.mem 0 n w a

/-- The disk, the contents that `bread` returns for each block, and `struct log`
as far as `commit` and recovery use it. The machine stops after `power` more
block writes. -/
structure Dev where
  disk : Nat → Block
  buf : Nat → Block
  start : Nat
  size : Nat
  n : Int
  block : Nat → Nat
  power : Nat

/-- Why the log code stops: the power fails, it panics, or it would access memory beyond `log.lh.block`. -/
inductive Stop where
  | off
  | panic (msg : String)
  | wild
  deriving DecidableEq

abbrev LogM := EStateM Stop Dev

/-- The driver panics on blocks beyond the end of the disk. -/
def bread (b : Nat) : LogM Block := do
  if b < FSSIZE then return (← get).buf b else throw (.panic "incorrect blockno")

/-- A buffer's new contents, and the block write that puts them on the disk. -/
def bwrite (b : Nat) (data : Block) : LogM Unit := do
  let s ← get
  if s.power = 0 then throw .off
  else
    set { s with
      disk := Function.update s.disk b data
      buf := Function.update s.buf b data
      power := s.power - 1 }

/-- `log.lh.block[i]` -/
def lhBlock (i : Nat) : LogM Nat := do
  if i < LOGSIZE then return (← get).block i else throw .wild

def install_trans : LogM Unit := do
  let s ← get
  (List.range s.n.toNat).forM fun tail => do
    let lbuf ← bread (u32 (s.start + tail + 1))
    let b ← lhBlock tail
    let _ ← bread b
    bwrite b lbuf

def read_head : LogM Unit := do
  let buf ← bread (← get).start
  modify fun s => { s with n := toInt (buf.word 0) }
  (List.range (toInt (buf.word 0)).toNat).forM fun i =>
    if i < LOGSIZE then modify fun s => { s with block := Function.update s.block i (buf.word (i + 1)) }
    else throw .wild

/-- The words of the header block: `n`, and then the first `n` entries of `block`. -/
def Dev.head (s : Dev) : Nat → Nat
  | 0 => (s.n % 2 ^ 32).toNat
  | k + 1 => s.block k

def write_head : LogM Unit := do
  let s ← get
  let buf ← bread s.start
  if s.n ≤ LOGSIZE then bwrite s.start (buf.setWords (s.n.toNat + 1) s.head) else throw .wild

def recover_from_log : LogM Unit := do
  read_head
  install_trans
  modify fun s => { s with n := 0 }
  write_head

/-- `initlog`, whose size test is about constants and holds. -/
def initlog : LogM Unit := do
  let sb ← bread 1
  modify fun s => { s with start := sb.word 4, size := sb.word 3 }
  recover_from_log

def write_log : LogM Unit := do
  let s ← get
  (List.range s.n.toNat).forM fun tail => do
    let _ ← bread (u32 (s.start + tail + 1))
    let b ← lhBlock tail
    let data ← bread b
    bwrite (u32 (s.start + tail + 1)) data

def commit : LogM Unit := do
  if (← get).n > 0 then
    write_log
    write_head
    install_trans
    modify fun s => { s with n := 0 }
    write_head

/-- The disk that `x` leaves, whether it ends or the machine stops before. -/
def left (x : LogM Unit) (s : Dev) : Nat → Block := (outcome.final (x.run s)).disk

/-- The kernel after it has been booted: nothing is cached and `log` is zero. -/
def boot (disk : Nat → Block) (power : Nat) : Dev where
  disk := disk
  buf := disk
  start := 0
  size := 0
  n := 0
  block _ := 0
  power := power

/-- The disk after recoveries that were stopped, each after its number of block writes. -/
def recoveries (disk : Nat → Block) (ks : List Nat) : Nat → Block := ks.foldl (fun d k => left initlog (boot d k)) disk

end xv6.log.redo
