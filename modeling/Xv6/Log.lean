import Mathlib.Logic.Function.Basic
import Xv6.Lib.Run

namespace xv6

abbrev MAXOPBLOCKS : Nat := 10

abbrev LOGSIZE : Nat := MAXOPBLOCKS * 3

namespace log

/-- Where a process stands in a file system operation. `w` holds the distinct
blocks it has logged since `begin_op`; `b` is the block that `log_write` has
been called with. The last process out of an operation commits. -/
inductive Pc where
  | user
  | op (w : List Nat)
  | sized (w : List Nat) (b : Nat)
  | traced (w : List Nat) (b : Nat)
  | commit
  | write_log (tail : Nat)
  | write_head
  | install_trans (tail : Nat)
  | clear
  | erase_head
  | committed
  deriving DecidableEq

/-- `struct log` and the processes that use it. The list `block` is
`lh.block[0..lh.n)`. The fields `logged` and `written` record the blocks logged
since the last commit and those that `write_log` has written. -/
structure Sys (P : Type) where
  start : Nat
  size : Nat
  outstanding : Int
  committing : Bool
  block : List Nat
  panic : Option String
  pc : P → Pc
  logged : List Nat
  written : List Nat

/-- What a process does next. -/
inductive Action (P : Type) where
  | begin_op (p : P)
  | log_write (p : P) (b : Nat)
  | trace (p : P)
  | append (p : P)
  | end_op (p : P)
  | commit (p : P)

variable {P : Type}

/-- The log after `initlog` on a disk with `nlog` log blocks from block 2, as `mkfs` writes it. -/
def initlog (nlog : Nat) : Sys P where
  start := 2
  size := nlog
  outstanding := 0
  committing := false
  block := []
  panic := none
  pc _ := .user
  logged := []
  written := []

variable [DecidableEq P]

def Sys.goto (s : Sys P) (p : P) (pc : Pc) : Sys P := { s with pc := Function.update s.pc p pc }

/-- `begin_op` goes on once nothing is committing and its reservation fits. -/
def begin_op (s : Sys P) (p : P) : Option (Sys P) :=
  if s.committing ∨ s.block.length + (s.outstanding + 1) * MAXOPBLOCKS > LOGSIZE then none
  else some ({ s with outstanding := s.outstanding + 1 }.goto p (.op []))

/-- The first test of `log_write`, made without the lock. -/
def log_write (s : Sys P) (p : P) (w : List Nat) (b : Nat) : Sys P :=
  if s.block.length ≥ LOGSIZE ∨ (s.block.length : Int) ≥ s.size - 1 then
    { s with panic := some "too big a transaction" }
  else
    s.goto p (.sized w b)

/-- The second test of `log_write`, made without the lock. -/
def log_write.trace (s : Sys P) (p : P) (w : List Nat) (b : Nat) : Sys P :=
  if s.outstanding < 1 then { s with panic := some "log_write outside of trans" } else s.goto p (.traced w b)

/-- The rest of `log_write`, under the lock: a block that is in the log already is absorbed. -/
def log_write.append (s : Sys P) (p : P) (w : List Nat) (b : Nat) : Sys P :=
  { s with
    block := if b ∈ s.block then s.block else s.block ++ [b]
    logged := s.logged ++ [b] }.goto p (.op (w.insert b))

/-- The part of `end_op` under the lock. -/
def end_op (s : Sys P) (p : P) : Sys P :=
  let s := { s with outstanding := s.outstanding - 1 }
  if s.committing then { s with panic := some "log.committing" }
  else if s.outstanding = 0 then { s with committing := true }.goto p .commit
  else s.goto p .user

/-- `commit`, block by block, and the end of `end_op`. -/
def commit (s : Sys P) (p : P) : Option (Sys P) :=
  match s.pc p with
  | .commit => some (s.goto p (if s.block.length > 0 then .write_log 0 else .committed))
  | .write_log tail =>
    if tail < s.block.length then
      some ({ s with written := s.written ++ [s.start + tail + 1] }.goto p (.write_log (tail + 1)))
    else
      some (s.goto p .write_head)
  | .write_head => some (s.goto p (.install_trans 0))
  | .install_trans tail =>
    some (s.goto p (if tail < s.block.length then .install_trans (tail + 1) else .clear))
  | .clear => some ({ s with block := [], logged := [] }.goto p .erase_head)
  | .erase_head => some (s.goto p .committed)
  | .committed => some ({ s with committing := false }.goto p .user)
  | _ => none

/-- One action, if it is possible. An operation logs at most `MAXOPBLOCKS` distinct blocks. -/
def exec (s : Sys P) : Action P → Option (Sys P)
  | .begin_op p => if s.pc p = .user then begin_op s p else none
  | .log_write p b =>
    match s.pc p with
    | .op w => if b ∈ w ∨ w.length < MAXOPBLOCKS then some (log_write s p w b) else none
    | _ => none
  | .trace p =>
    match s.pc p with
    | .sized w b => some (log_write.trace s p w b)
    | _ => none
  | .append p =>
    match s.pc p with
    | .traced w b => some (log_write.append s p w b)
    | _ => none
  | .end_op p =>
    match s.pc p with
    | .op _ => some (end_op s p)
    | _ => none
  | .commit p => commit s p

/-- One step of a kernel that has not panicked. `K` says which actions a run may take. -/
inductive Step (K : Sys P → Action P → Prop) : Sys P → Sys P → Prop
  | exec {s s' : Sys P} (a : Action P) : s.panic = none → K s a → exec s a = some s' → Step K s s'

/-- The state after `initlog` on the disk that `mkfs` writes, where `nlog` is `LOGSIZE`. -/
def Started (s : Sys P) : Prop := s = initlog LOGSIZE

end log

end xv6
