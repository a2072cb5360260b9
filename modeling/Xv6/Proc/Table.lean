import Xv6.File
import Xv6.Lib.Run

namespace xv6.ptable

/-- What a process sleeps on: a process record, as in `wait`, or some other address. -/
inductive Chan where
  | proc (p : Fin NPROC)
  | other (a : Nat)
  deriving DecidableEq

/-- The fields of `struct proc` that the process table operations read or write. -/
structure Slot where
  state : ProcState
  pid : Nat
  parent : Option (Fin NPROC)
  chan : Option Chan
  killed : Bool
  kstack : Bool
  deriving DecidableEq

/-- Where a process stands inside `fork`, which runs mostly without the lock of
the process table: before `kalloc`, before `copyuvm`, before the assignment of
the parent and before the state becomes `RUNNABLE`. -/
inductive Pc where
  | user
  | kalloc (np : Fin NPROC)
  | copyuvm (np : Fin NPROC)
  | parent (np : Fin NPROC)
  | runnable (np : Fin NPROC)
  deriving DecidableEq

/-- What happens to a process once, named by its pid. -/
inductive Event where
  | zombie (pid : Nat)
  | reap (pid : Nat)
  | kfree (pid : Nat)
  | freevm (pid : Nat)
  deriving DecidableEq

/-- The process table with the processes of the CPUs in `C`. The fields `created`
and `trace` only record what has happened. -/
structure Table (C : Type) where
  slot : Fin NPROC → Slot
  nextpid : Nat
  initproc : Fin NPROC
  cpu : C → Option (Fin NPROC)
  pc : Fin NPROC → Pc
  created : Nat
  trace : List Event

variable {C : Type}

def Table.update (t : Table C) (p : Fin NPROC) (f : Slot → Slot) : Table C :=
  { t with slot := Function.update t.slot p (f (t.slot p)) }

def Table.goto (t : Table C) (p : Fin NPROC) (pc : Pc) : Table C :=
  { t with pc := Function.update t.pc p pc }

def Table.log (t : Table C) (e : Event) : Table C := { t with trace := t.trace ++ [e] }

/-- The part of `allocproc` under the lock. -/
def allocproc (t : Table C) : Option (Fin NPROC × Table C) :=
  match findSlot fun p => decide ((t.slot p).state = .UNUSED) with
  | none => none
  | some p =>
    some (p, { t.update p fun s => { s with state := .EMBRYO, pid := t.nextpid } with
      nextpid := u32 (t.nextpid + 1), created := t.created + 1 })

/-- The rest of `allocproc`: the kernel stack, or the slot is given back. -/
def allocproc.kstack (t : Table C) (np : Fin NPROC) (ok : Bool) : Table C :=
  if ok then t.update np fun s => { s with kstack := true }
  else t.update np fun s => { s with state := .UNUSED, kstack := false }

/-- The failing branch of `fork` after `copyuvm`. -/
def fork.fail (t : Table C) (np : Fin NPROC) : Table C :=
  (t.log (.kfree (t.slot np).pid)).update np fun s => { s with kstack := false, state := .UNUSED }

def fork.parent (t : Table C) (p np : Fin NPROC) : Table C :=
  t.update np fun s => { s with parent := some p }

def fork.runnable (t : Table C) (np : Fin NPROC) : Table C :=
  t.update np fun s => { s with state := .RUNNABLE }

def Slot.wakeup (s : Slot) (chan : Option Chan) : Slot :=
  if s.state = .SLEEPING ∧ s.chan = chan then { s with state := .RUNNABLE } else s

def wakeup1 (t : Table C) (chan : Option Chan) : Table C :=
  { t with slot := fun p => (t.slot p).wakeup chan }

/-- One round of the loop of `exit` over the process table. -/
def exit.abandon (p : Fin NPROC) (t : Table C) (q : Fin NPROC) : Table C :=
  if (t.slot q).parent = some p then
    let t := t.update q fun s => { s with parent := some t.initproc }
    if (t.slot q).state = .ZOMBIE then wakeup1 t (some (.proc t.initproc)) else t
  else
    t

/-- Free a zombie child; `pid`, `parent` and `killed` are reset. -/
def wait.reap (t : Table C) (q : Fin NPROC) : Table C :=
  let t := (t.log (.kfree (t.slot q).pid)).log (.freevm (t.slot q).pid)
  (t.log (.reap (t.slot q).pid)).update q fun s =>
    { s with kstack := false, pid := 0, parent := none, killed := false, state := .UNUSED }

/-- `kill` looks at the pid alone, whatever the state of the slot. -/
def kill (t : Table C) (pid : Nat) : Int × Table C :=
  match findSlot fun p => decide ((t.slot p).pid = pid) with
  | none => (-1, t)
  | some p =>
    (0, t.update p fun s =>
      { s with killed := true, state := if s.state = .SLEEPING then .RUNNABLE else s.state })

variable [DecidableEq C]

/-- The part of `exit` under the lock, up to the switch to the scheduler. -/
def exit (t : Table C) (c : C) (p : Fin NPROC) : Table C :=
  let t := wakeup1 t ((t.slot p).parent.map .proc)
  let t := (List.finRange NPROC).foldl (exit.abandon p) t
  let t := (t.update p fun s => { s with state := .ZOMBIE }).log (.zombie (t.slot p).pid)
  { t with cpu := Function.update t.cpu c none }

/-- `sleep`, up to the switch to the scheduler. -/
def sleep (t : Table C) (c : C) (p : Fin NPROC) (chan : Chan) : Table C :=
  { t.update p fun s => { s with chan := some chan, state := .SLEEPING } with
    cpu := Function.update t.cpu c none }

/-- One pass of `wait` under the lock: reap the first zombie child, return -1, or sleep. -/
def wait (t : Table C) (c : C) (p : Fin NPROC) : Table C :=
  match findSlot fun q => decide ((t.slot q).parent = some p) && decide ((t.slot q).state = .ZOMBIE) with
  | some q => wait.reap t q
  | none =>
    if (∀ q, (t.slot q).parent ≠ some p) ∨ (t.slot p).killed then t else sleep t c p (.proc p)

def yield (t : Table C) (c : C) (p : Fin NPROC) : Table C :=
  { t.update p fun s => { s with state := .RUNNABLE } with cpu := Function.update t.cpu c none }

/-- The switch to process `p`, which still under the lock returns from `sched`
and, if it slept, clears its channel. -/
def scheduler (t : Table C) (c : C) (p : Fin NPROC) : Table C :=
  { t.update p fun s => { s with state := .RUNNING, chan := none } with
    cpu := Function.update t.cpu c (some p) }

/-- The table after `userinit`: one process with pid 1 in slot `p`. -/
def userinit (p : Fin NPROC) : Table C where
  slot q :=
    if q = p then
      { state := .RUNNABLE, pid := 1, parent := none, chan := none, killed := false, kstack := true }
    else
      { state := .UNUSED, pid := 0, parent := none, chan := none, killed := false, kstack := false }
  nextpid := 2
  initproc := p
  cpu _ := none
  pc _ := .user
  created := 1
  trace := []

/-- One step of some CPU: a critical section under the lock of the process
table, or one of the assignments that `fork` makes without it. -/
inductive Step : Table C → Table C → Prop
  | scheduler {t : Table C} (c : C) (p : Fin NPROC) : t.cpu c = none → (t.slot p).state = .RUNNABLE →
      Step t (scheduler t c p)
  | yield {t : Table C} (c : C) (p : Fin NPROC) : t.cpu c = some p → Step t (yield t c p)
  | sleep {t : Table C} (c : C) (p : Fin NPROC) (chan : Chan) : t.cpu c = some p → t.pc p = .user →
      Step t (sleep t c p chan)
  | wakeup {t : Table C} (chan : Chan) : Step t (wakeup1 t (some chan))
  | kill {t : Table C} (pid : Nat) : Step t (kill t pid).2
  | fork {t t' : Table C} (c : C) (p np : Fin NPROC) : t.cpu c = some p → t.pc p = .user →
      allocproc t = some (np, t') → Step t (t'.goto p (.kalloc np))
  | kalloc {t : Table C} (c : C) (p np : Fin NPROC) (ok : Bool) : t.cpu c = some p → t.pc p = .kalloc np →
      Step t ((allocproc.kstack t np ok).goto p (if ok then .copyuvm np else .user))
  | copyuvm {t : Table C} (c : C) (p np : Fin NPROC) (ok : Bool) : t.cpu c = some p → t.pc p = .copyuvm np →
      Step t (if ok then t.goto p (.parent np) else (fork.fail t np).goto p .user)
  | parent {t : Table C} (c : C) (p np : Fin NPROC) : t.cpu c = some p → t.pc p = .parent np →
      Step t ((fork.parent t p np).goto p (.runnable np))
  | runnable {t : Table C} (c : C) (p np : Fin NPROC) : t.cpu c = some p → t.pc p = .runnable np →
      Step t ((fork.runnable t np).goto p .user)
  | exit {t : Table C} (c : C) (p : Fin NPROC) : t.cpu c = some p → t.pc p = .user → p ≠ t.initproc →
      Step t (exit t c p)
  | wait {t : Table C} (c : C) (p : Fin NPROC) : t.cpu c = some p → t.pc p = .user → Step t (wait t c p)

end xv6.ptable
