import Mathlib.Logic.Function.Basic
import Xv6.Lib.Run

namespace xv6

/-- `struct sleeplock`, its spin-lock apart. `pid` is the process holding the lock. -/
structure Sleeplock (P : Type) where
  locked : Bool
  pid : Option P

namespace Sleeplock

/-- Where a process stands in `acquiresleep` and `releasesleep`. It is at
`held` when its `acquiresleep` has returned. -/
inductive Pc where
  | user
  | aAcquire
  | aWhile
  | aSleep
  | aSlept
  | aWoken
  | aSet
  | aRelease
  | held
  | rAcquire
  | rClear
  | rWakeup
  | rRelease
  deriving DecidableEq

/-- A sleep-lock and the processes that use it. `lk` and `ptable` are the
holders of the two spin-locks, `sleeping` says which processes are `SLEEPING`
on the sleep-lock. -/
structure Sys (P : Type) where
  lock : Sleeplock P
  lk : Option P
  ptable : Option P
  pc : P → Pc
  sleeping : P → Bool
  killed : P → Bool

variable {P : Type}

def initsleeplock (killed : P → Bool) : Sys P where
  lock := { locked := false, pid := none }
  lk := none
  ptable := none
  pc _ := .user
  sleeping _ := false
  killed := killed

def Initial (s : Sys P) : Prop := ∃ killed, s = initsleeplock killed

variable [DecidableEq P]

def Sys.goto (s : Sys P) (p : P) (pc : Pc) : Sys P := { s with pc := Function.update s.pc p pc }

def acquire (s : Sys P) (p : P) (pc : Pc) : Option (Sys P) :=
  if s.lk = none then some ({ s with lk := some p }.goto p pc) else none

def release (s : Sys P) (p : P) (pc : Pc) : Sys P := { s with lk := none }.goto p pc

/-- `wakeup` of the processes that sleep on the lock needs the lock of the process table. -/
def wakeup (s : Sys P) (p : P) (pc : Pc) : Option (Sys P) :=
  if s.ptable = none then some ({ s with sleeping := fun _ => false }.goto p pc) else none

/-- The first half of `sleep` takes the lock of the process table and gives up `lk`. -/
def sleep (s : Sys P) (p : P) (pc : Pc) : Option (Sys P) :=
  if s.ptable = none then some ({ s with lk := none, ptable := some p }.goto p pc) else none

/-- The second half of `sleep`, up to the switch to the scheduler. -/
def sched (s : Sys P) (p : P) (pc : Pc) : Sys P :=
  { s with ptable := none, sleeping := Function.update s.sleeping p true }.goto p pc

/-- The next action of process `p`, if it can take one. -/
def exec (s : Sys P) (p : P) : Option (Sys P) :=
  match s.pc p with
  | .user | .held => none
  | .aAcquire => acquire s p .aWhile
  | .aWhile => some (s.goto p (if s.lock.locked then .aSleep else .aSet))
  | .aSleep => sleep s p .aSlept
  | .aSlept => some (sched s p .aWoken)
  | .aWoken => acquire s p .aWhile
  | .aSet => some ({ s with lock := { locked := true, pid := some p } }.goto p .aRelease)
  | .aRelease => some (release s p .held)
  | .rAcquire => acquire s p .rClear
  | .rClear => some ({ s with lock := { locked := false, pid := none } }.goto p .rWakeup)
  | .rWakeup => wakeup s p .rRelease
  | .rRelease => some (release s p .user)

/-- `kill` marks a process and ends its sleep. -/
def kill (s : Sys P) (p : P) : Sys P :=
  { s with killed := Function.update s.killed p true, sleeping := Function.update s.sleeping p false }

def holdingsleep (s : Sys P) (p : P) : Bool := s.lock.locked && s.lock.pid == some p

/-- One step: a process calls `acquiresleep`, or `releasesleep` when it has the
lock, or goes on if it does not sleep, or is killed. -/
inductive Step : Sys P → Sys P → Prop
  | acquiresleep {s : Sys P} (p : P) : s.pc p = .user → Step s (s.goto p .aAcquire)
  | releasesleep {s : Sys P} (p : P) : s.pc p = .held → Step s (s.goto p .rAcquire)
  | exec {s s' : Sys P} (p : P) : s.sleeping p = false → exec s p = some s' → Step s s'
  | kill {s : Sys P} (p : P) : s.ptable = none → Step s (kill s p)

end Sleeplock

end xv6
