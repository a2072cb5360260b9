import Mathlib.Logic.Function.Basic
import Xv6.Lib.Run

namespace xv6

abbrev PIPESIZE : Nat := 512

/-- `struct pipe`, its lock apart. -/
structure Pipe where
  data : Fin PIPESIZE → UInt8
  nread : UInt32
  nwrite : UInt32
  readopen : Bool
  writeopen : Bool

namespace Pipe

/-- The two addresses that processes sleep on. -/
inductive Chan where
  | nread
  | nwrite
  deriving DecidableEq

/-- Where a process stands in `pipewrite`, `piperead` or `pipeclose`. A writer
keeps the bytes it still has to store, a reader the bytes it has got. -/
inductive Pc where
  | user
  | wAcquire (addr : List UInt8)
  | wFor (n : Nat) (addr : List UInt8)
  | wWhile (n : Nat) (b : UInt8) (addr : List UInt8)
  | wCheck (n : Nat) (b : UInt8) (addr : List UInt8)
  | wWakeup (n : Nat) (b : UInt8) (addr : List UInt8)
  | wSleep (n : Nat) (b : UInt8) (addr : List UInt8)
  | wSlept (n : Nat) (b : UInt8) (addr : List UInt8)
  | wWoken (n : Nat) (b : UInt8) (addr : List UInt8)
  | wDone (n : Nat)
  | wRelease (r : Int)
  | rAcquire (n : Nat)
  | rWhile (n : Nat)
  | rCheck (n : Nat)
  | rSleep (n : Nat)
  | rSlept (n : Nat)
  | rWoken (n : Nat)
  | rFor (n : Nat) (got : List UInt8)
  | rDone (got : List UInt8)
  | rRelease (r : Int)
  | cAcquire (writable : Bool)
  | cSet (writable : Bool)
  | cWakeup (writable : Bool)
  | cRelease
  deriving DecidableEq

/-- The pipe and the processes that use it. `chan p` is the channel on which `p`
is `SLEEPING`, `ptable` is the holder of the lock of the process table in the
middle of `sleep`, and `stored` and `taken` record the bytes that went through. -/
structure Sys (P : Type) where
  pipe : Pipe
  lock : Option P
  ptable : Option P
  pc : P → Pc
  chan : P → Option Chan
  killed : P → Bool
  stored : List UInt8
  taken : List UInt8

def full (pipe : Pipe) : Prop := pipe.nwrite = pipe.nread + 512

def empty (pipe : Pipe) : Prop := pipe.nread = pipe.nwrite

instance (pipe : Pipe) : Decidable pipe.full := inferInstanceAs (Decidable (_ = _))

instance (pipe : Pipe) : Decidable pipe.empty := inferInstanceAs (Decidable (_ = _))

/-- `p->data[p->nwrite++ % PIPESIZE] = b` -/
def put (pipe : Pipe) (b : UInt8) : Pipe :=
  { pipe with
    data := Function.update pipe.data (Fin.ofNat PIPESIZE pipe.nwrite.toNat) b
    nwrite := pipe.nwrite + 1 }

/-- The byte `p->data[p->nread % PIPESIZE]`. -/
def head (pipe : Pipe) : UInt8 := pipe.data (Fin.ofNat PIPESIZE pipe.nread.toNat)

def close (pipe : Pipe) (writable : Bool) : Pipe :=
  if writable then { pipe with writeopen := false } else { pipe with readopen := false }

variable {P : Type}

/-- The pipe after `pipealloc`, on a page that held `data`. -/
def pipealloc (data : Fin PIPESIZE → UInt8) (killed : P → Bool) : Sys P where
  pipe := { data, nread := 0, nwrite := 0, readopen := true, writeopen := true }
  lock := none
  ptable := none
  pc _ := .user
  chan _ := none
  killed := killed
  stored := []
  taken := []

def Allocated (s : Sys P) : Prop := ∃ data killed, s = pipealloc data killed

/-- `wakeup` of the processes that sleep on `c`. -/
def Sys.wakeup (s : Sys P) (c : Chan) : Sys P :=
  { s with chan := fun q => if s.chan q = some c then none else s.chan q }

variable [DecidableEq P]

def Sys.goto (s : Sys P) (p : P) (pc : Pc) : Sys P := { s with pc := Function.update s.pc p pc }

def acquire (s : Sys P) (p : P) (pc : Pc) : Option (Sys P) :=
  if s.lock = none then some ({ s with lock := some p }.goto p pc) else none

def release (s : Sys P) (p : P) (pc : Pc) : Sys P := { s with lock := none }.goto p pc

/-- `wakeup` needs the lock of the process table. -/
def wakeup (s : Sys P) (p : P) (c : Chan) (pc : Pc) : Option (Sys P) :=
  if s.ptable = none then some ((s.wakeup c).goto p pc) else none

/-- The first half of `sleep` takes the lock of the process table and gives up the pipe's. -/
def sleep (s : Sys P) (p : P) (pc : Pc) : Option (Sys P) :=
  if s.ptable = none then some ({ s with lock := none, ptable := some p }.goto p pc) else none

/-- The second half of `sleep`, up to the switch to the scheduler. -/
def sched (s : Sys P) (p : P) (c : Chan) (pc : Pc) : Sys P :=
  { s with ptable := none, chan := Function.update s.chan p (some c) }.goto p pc

/-- The next action of process `p`, if it can take one. -/
def exec (s : Sys P) (p : P) : Option (Sys P) :=
  match s.pc p with
  | .user => none
  | .wAcquire addr => acquire s p (.wFor addr.length addr)
  | .wFor n [] => some (s.goto p (.wDone n))
  | .wFor n (b :: addr) => some (s.goto p (.wWhile n b addr))
  | .wWhile n b addr =>
    if s.pipe.full then some (s.goto p (.wCheck n b addr))
    else some ({ s with pipe := s.pipe.put b, stored := s.stored ++ [b] }.goto p (.wFor n addr))
  | .wCheck n b addr =>
    if s.pipe.readopen = false ∨ s.killed p then some (s.goto p (.wRelease (-1)))
    else some (s.goto p (.wWakeup n b addr))
  | .wWakeup n b addr => wakeup s p .nread (.wSleep n b addr)
  | .wSleep n b addr => sleep s p (.wSlept n b addr)
  | .wSlept n b addr => some (sched s p .nwrite (.wWoken n b addr))
  | .wWoken n b addr => acquire s p (.wWhile n b addr)
  | .wDone n => wakeup s p .nread (.wRelease n)
  | .wRelease _ => some (release s p .user)
  | .rAcquire n => acquire s p (.rWhile n)
  | .rWhile n =>
    if s.pipe.empty ∧ s.pipe.writeopen then some (s.goto p (.rCheck n)) else some (s.goto p (.rFor n []))
  | .rCheck n => if s.killed p then some (s.goto p (.rRelease (-1))) else some (s.goto p (.rSleep n))
  | .rSleep n => sleep s p (.rSlept n)
  | .rSlept n => some (sched s p .nread (.rWoken n))
  | .rWoken n => acquire s p (.rWhile n)
  | .rFor n got =>
    if got.length < n ∧ ¬ s.pipe.empty then
      some ({ s with
        pipe := { s.pipe with nread := s.pipe.nread + 1 }
        taken := s.taken ++ [s.pipe.head] }.goto p (.rFor n (got ++ [s.pipe.head])))
    else
      some (s.goto p (.rDone got))
  | .rDone got => wakeup s p .nwrite (.rRelease got.length)
  | .rRelease _ => some (release s p .user)
  | .cAcquire writable => acquire s p (.cSet writable)
  | .cSet writable => some ({ s with pipe := s.pipe.close writable }.goto p (.cWakeup writable))
  | .cWakeup writable => wakeup s p (if writable then .nread else .nwrite) .cRelease
  | .cRelease => some (release s p .user)

/-- `kill` marks a process and ends its sleep. -/
def kill (s : Sys P) (p : P) : Sys P :=
  { s with killed := Function.update s.killed p true, chan := Function.update s.chan p none }

/-- The beginnings of the three calls. -/
def Pc.isCall : Pc → Prop
  | .wAcquire _ | .rAcquire _ | .cAcquire _ => True
  | _ => False

/-- One step: a process calls into the pipe or goes on if it does not sleep, or
is killed. `E` says which processes may take their next action. -/
inductive Step (E : Sys P → P → Prop) : Sys P → Sys P → Prop
  | call {s : Sys P} (p : P) (pc : Pc) : s.pc p = .user → pc.isCall → Step E s (s.goto p pc)
  | exec {s s' : Sys P} (p : P) : s.chan p = none → E s p → exec s p = some s' → Step E s s'
  | kill {s : Sys P} (p : P) : s.ptable = none → Step E s (kill s p)

end Pipe

end xv6
