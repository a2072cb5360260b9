import Xv6.Layout
import Xv6.Lib.Bytes
import Xv6.Lib.Outcome

open bytes

namespace xv6

inductive ProcState where
  | UNUSED | EMBRYO | SLEEPING | RUNNABLE | RUNNING | ZOMBIE
  deriving DecidableEq

/-- The registers of a trap frame that the modelled system calls read or set. -/
structure TrapFrame where
  eax : Nat
  eip : Nat
  esp : Nat

structure Proc where
  sz : Nat
  hugesz : Nat
  pgdir : Nat
  kstack : Nat
  state : ProcState
  pid : Nat
  parent : Option (Fin NPROC)
  tf : TrapFrame
  killed : Bool
  ofile : Fin NOFILE → Option (Fin NFILE)
  name : List UInt8

inductive FileType where
  | FD_NONE | FD_PIPE | FD_INODE
  deriving DecidableEq

structure File where
  type : FileType
  ref : Nat
  readable : Bool
  writable : Bool
  pipe : Nat

/-- One call of a frame deallocator, with the pointer it was given. -/
inductive FreeCall where
  | kfree (v : Nat)
  | khugefree (v : Nat)
  deriving DecidableEq

/-- Physical memory, the two allocators, the process and file tables and the
loaded page directory. Kernel pointers are kernel virtual addresses: the kernel
reaches physical address `pa` at `P2V pa`. The field `frees` only records the
calls of `kfree` and `khugefree`. -/
structure Machine where
  mem : Mem
  freelist : Nat
  freehugelist : Nat
  kpgdir : Nat
  cr3 : Nat
  proc : Fin NPROC → Proc
  initproc : Fin NPROC
  nextpid : Nat
  file : Fin NFILE → File
  cpustack : List Nat
  frees : List FreeCall

/-- A call ends in a kernel panic, or its loop never reaches its exit. -/
inductive Halt where
  | panic (msg : String)
  | hang
  deriving DecidableEq

abbrev KernelM := EStateM Halt Machine

def panic {α : Type} (msg : String) : KernelM α := throw (.panic msg)

/-- `*p` and `*p = v` for a kernel pointer to a 32-bit word. -/
def readWord (p : Nat) : KernelM Nat := do
  let s ← get
  return load32 s.mem (V2P p)

def writeWord (p v : Nat) : KernelM Unit :=
  modify fun s => { s with mem := store32 s.mem (V2P p) v }

def memset (p : Nat) (c : UInt8) (n : Nat) : KernelM Unit :=
  modify fun s => { s with mem := fill s.mem (V2P p) c n }

/-- `memmove` between two frames, which never overlap. -/
def memmove (dst src n : Nat) : KernelM Unit :=
  modify fun s => { s with mem := blit s.mem (V2P dst) (slice s.mem (V2P src) n) }

/-- Copy bytes from outside the modelled memory to a kernel pointer. -/
def writeBytes (p : Nat) (bytes : List UInt8) : KernelM Unit :=
  modify fun s => { s with mem := blit s.mem (V2P p) bytes }

def updateProc (p : Fin NPROC) (f : Proc → Proc) : KernelM Unit :=
  modify fun s => { s with proc := Function.update s.proc p (f (s.proc p)) }

def updateFile (f : Fin NFILE) (g : File → File) : KernelM Unit :=
  modify fun s => { s with file := Function.update s.file f (g (s.file f)) }

end xv6
